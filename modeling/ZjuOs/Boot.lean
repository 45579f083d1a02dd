import ZjuOs.Mmaps

/-! `task_init` up to the areas: the page of a new task and its root table. -/
namespace ZjuOs
open Memory Exec Radix

section Stores
variable {img : Image} {s u : KState} {m : Mem} {c d o : Nat} {vs : List Nat} {Q : Unit → KState → Prop}
  {E : Halt → KState → Prop}

/-- The memory behind stores to the words from `a` on. -/
def sdWords (m : Mem) (a : Nat) : List Nat → Mem
  | [] => m
  | v :: vs => sdWords (sd 8 m a v) (a + 8) vs

theorem ld_sdWords_outside {a x n : Nat} (h : x + n ≤ a ∨ a + 8 * vs.length ≤ x) : ld n (sdWords m a vs) x = ld n m x := by
  induction vs generalizing m a with
  | nil => rfl
  | cons v vs ih =>
      rw [List.length_cons] at h
      rw [sdWords, ih (by omega), ld_sd_of_disjoint (by omega)]

theorem ld_sdWords {a k : Nat} (hk : k < vs.length) : ld 8 (sdWords m a vs) (a + 8 * k) = vs[k] % 2 ^ 64 := by
  induction vs generalizing m a k with
  | nil => exact absurd hk (Nat.not_lt_zero k)
  | cons v vs ih =>
      cases k with
      | zero =>
          rw [sdWords, ld_sdWords_outside (by omega), Nat.mul_zero, Nat.add_zero, ld_sd_self]
          rfl
      | succ k =>
          have hnext : a + 8 * (k + 1) = a + 8 + 8 * k := by omega
          rw [sdWords, hnext, ih (Nat.lt_of_succ_lt_succ hk), List.getElem_cons_succ]

/-- Stores into the page `c`. -/
theorem ends_storeWords (hc : img.Ram c) (ho : o + 8 * vs.length ≤ 4096)
    (hQ : ∀ m', m' = sdWords m (c * 4096 + o) vs → (∀ f, f ≠ c → SameFrame m' m f) → Q () (u.withMem m')) :
    Ends (storeWords img (framePtr c + o) vs) (u.withMem m) Q E := by
  induction vs generalizing m o with
  | nil => exact ends_pure.mpr (hQ m rfl fun f _ => .refl m f)
  | cons v vs ih =>
      rw [List.length_cons] at ho
      refine ends_bind.mpr ((ends_storeWord hc (by omega)).mpr ?_)
      rw [KState.withMem_withMem, Nat.add_assoc]
      refine ih (by omega) fun m' he hm' => hQ m' (by rw [he, sdWords, Nat.add_assoc]; rfl) fun f hf => (hm' f hf).trans ?_
      exact sameFrame_sd fun p hp => by omega

theorem srand_spec (n : Nat) : Ends (srand n) s (fun _ t => ∃ seed, t = { s with seed }) fun _ _ => False :=
  ends_modify.mpr ⟨_, rfl⟩

theorem rand_spec : Ends rand s (fun _ t => ∃ seed, t = { s with seed }) fun _ _ => False :=
  ends_bind.mpr (ends_modify.mpr (ends_bind.mpr (ends_get.mpr (ends_pure.mpr ⟨_, rfl⟩))))

/-- The copy of the kernel's root table. -/
theorem copyRoot_spec (hd : img.Ram d) {n j : Nat} (hj : j + n = 512) :
    Ends (copyRoot img (framePtr d) n j) s
      (fun _ t => ∃ m, t = s.withMem m ∧
        (∀ x, x < d * 4096 + 8 * j ∨ d * 4096 + 4096 ≤ x → m x = s.mem x) ∧
        ∀ o, 8 * j ≤ o → o < 4096 → m (d * 4096 + o) = s.mem (img.swapperFrame * 4096 + o))
      fun _ _ => False := by
  induction n generalizing s j with
  | zero => exact ends_pure.mpr ⟨s.mem, rfl, fun _ _ => rfl, fun o hlo hhi => by omega⟩
  | succ n ih =>
      rw [copyRoot, swapperPgDir_eq]
      refine ends_bind.mpr ((ends_loadWord (swapperFrame_ram img) (by omega)).mpr ?_)
      refine ends_bind.mpr ((ends_storeWord hd (by omega)).mpr ?_)
      refine (ih (by omega)).mono ?_ fun _ _ hno => hno
      rintro _ t ⟨m, rfl, hout, hin⟩
      refine ⟨m, KState.withMem_withMem .., fun x hx => ?_, fun o hlo hhi => ?_⟩
      · rw [hout x (by omega), KState.withMem_mem]
        exact sd_outside (by omega)
      · by_cases ho : 8 * (j + 1) ≤ o
        · rw [hin o ho hhi, KState.withMem_mem]
          exact sd_outside (by omega)
        · have hword : sd 8 s.mem (d * 4096 + 8 * j) (ld 8 s.mem (img.swapperFrame * 4096 + 8 * j))
              (d * 4096 + 8 * j + (o - 8 * j)) = s.mem (img.swapperFrame * 4096 + 8 * j + (o - 8 * j)) :=
            sd_ld (by omega)
          rw [hout _ (by omega), KState.withMem_mem]
          have hsub : 8 * j + (o - 8 * j) = o := by omega
          rwa [Nat.add_assoc, Nat.add_assoc, hsub] at hword

end Stores

/-- The numbers and the context of the new task `i` in page `c`, before `VMA_init` sets its `sepc`. -/
structure Newborn (img : Image) (m : Mem) (c i : Nat) : Prop where
  counter : ld 8 m (c * 4096 + TASK_COUNTER) = 0
  min : PRIORITY_MIN ≤ ld 8 m (c * 4096 + TASK_PRIORITY)
  max : ld 8 m (c * 4096 + TASK_PRIORITY) ≤ PRIORITY_MAX
  pid : ld 8 m (c * 4096 + TASK_PID) = i
  ra : ld 8 m (c * 4096 + THREAD_RA) = img.dummy % 2 ^ 64
  sp : ld 8 m (c * 4096 + THREAD_SP) = (framePtr c + PGSIZE) % 2 ^ 64
  s : ∀ k, k < 12 → ld 8 m (c * 4096 + THREAD_S + 8 * k) = 0
  sstatus : ld 8 m (c * 4096 + THREAD_SSTATUS) = 0x40020
  sscratch : ld 8 m (c * 4096 + THREAD_SSCRATCH) = USER_END

section Spawn
variable {img : Image} {lay : Layout} {s t u : KState} {j c d w : Nat}

theorem ld_pair {m : Mem} {a x y : Nat} : ld 8 (sdWords m a [x, y]) a = x % 2 ^ 64 ∧ ld 8 (sdWords m a [x, y]) (a + 8) = y % 2 ^ 64 :=
  ⟨@ld_sdWords m [x, y] a 0 Nat.two_pos, @ld_sdWords m [x, y] a 1 Nat.one_lt_two⟩

theorem ld_triple {m : Mem} {a x y z : Nat} :
    ld 8 (sdWords m a [x, y, z]) (a + 8) = y % 2 ^ 64 ∧ ld 8 (sdWords m a [x, y, z]) (a + 16) = z % 2 ^ 64 :=
  ⟨@ld_sdWords m [x, y, z] a 1 (Nat.lt_of_sub_pos Nat.two_pos), @ld_sdWords m [x, y, z] a 2 (Nat.lt_succ_self 2)⟩

theorem ld_four {m : Mem} {a w x y z : Nat} : ld 8 (sdWords m a [w, x, y, z]) (a + 8) = x % 2 ^ 64 ∧
    ld 8 (sdWords m a [w, x, y, z]) (a + 16) = y % 2 ^ 64 ∧ ld 8 (sdWords m a [w, x, y, z]) (a + 24) = z % 2 ^ 64 :=
  ⟨@ld_sdWords m [w, x, y, z] a 1 (Nat.lt_of_sub_pos (Nat.succ_pos 2)), @ld_sdWords m [w, x, y, z] a 2 (Nat.lt_of_sub_pos (Nat.succ_pos 1)),
    @ld_sdWords m [w, x, y, z] a 3 (Nat.lt_succ_self 3)⟩

/-- The words of the context are stored one after the other. -/
theorem Newborn.of_stores {m m₁ m₂ m₃ m₄ : Mem} {img : Image} {i number : Nat} (hi : i < NR_TASKS)
    (h₁ : m₁ = sdWords m (c * 4096 + 0)
      [TASK_RUNNING, 0, number % (PRIORITY_MAX - PRIORITY_MIN + 1) + PRIORITY_MIN, i])
    (h₂ : m₂ = sdWords m₁ (c * 4096 + THREAD_RA) [img.dummy, (framePtr c + PGSIZE) % 2 ^ 64])
    (h₃ : m₃ = sdWords m₂ (c * 4096 + THREAD_S) (List.replicate 12 0))
    (h₄ : m₄ = sdWords m₃ (c * 4096 + THREAD_SEPC) [USER_START, 0x40020, USER_END]) : Newborn img m₄ c i := by
  have hlow : ∀ k, k + 8 ≤ 48 → ld 8 m₄ (c * 4096 + k) = ld 8 m₂ (c * 4096 + k) := fun k hk => by
    rw [h₄, ld_sdWords_outside (by simp only [THREAD_SEPC]; omega), h₃, ld_sdWords_outside (by simp only [THREAD_S]; omega)]
  have hplace : ∀ k n, c * 4096 + (k + n) = c * 4096 + k + n := fun k n => (Nat.add_assoc ..).symm
  have hfirst : ∀ k, k + 8 ≤ 32 → ld 8 m₄ (c * 4096 + k) = ld 8 m₁ (c * 4096 + k) := fun k hk => by
    rw [hlow k (by omega), h₂, ld_sdWords_outside (by simp only [THREAD_RA]; omega)]
  have hpriority : ld 8 m₄ (c * 4096 + TASK_PRIORITY) = number % (PRIORITY_MAX - PRIORITY_MIN + 1) + PRIORITY_MIN := by
    rw [hfirst _ (by decide), h₁, Nat.add_zero, ld_four.2.1]
    refine Nat.mod_eq_of_lt ?_
    simp only [PRIORITY_MAX, PRIORITY_MIN]
    omega
  constructor
  case counter =>
    rw [hfirst _ (by decide), h₁, Nat.add_zero, ld_four.1]
    rfl
  case min =>
    rw [hpriority]
    exact Nat.le_add_left ..
  case max =>
    rw [hpriority]
    simp only [PRIORITY_MAX, PRIORITY_MIN]
    omega
  case pid =>
    rw [hfirst _ (by decide), h₁, Nat.add_zero, ld_four.2.2]
    exact Nat.mod_eq_of_lt (hi.trans (by decide))
  case ra => rw [hlow _ (by decide), h₂, ld_pair.1]
  case sp => rw [hlow _ (by decide), h₂, show THREAD_SP = THREAD_RA + 8 from rfl, hplace, ld_pair.2, Nat.mod_mod]
  case s =>
    intro k hk
    rw [h₄, ld_sdWords_outside (by simp only [THREAD_S, THREAD_SEPC]; omega), h₃,
      ld_sdWords (by rwa [List.length_replicate]), List.getElem_replicate, Nat.zero_mod]
  case sstatus =>
    rw [h₄, show THREAD_SSTATUS = THREAD_SEPC + 8 from rfl, hplace, ld_triple.1]
    rfl
  case sscratch =>
    rw [h₄, show THREAD_SSCRATCH = THREAD_SEPC + 16 from rfl, hplace, ld_triple.2]
    rfl

theorem Newborn.congr {m m' : Mem} {i : Nat} (h : Newborn img m c i) (hs : ∀ k, k + 8 ≤ TASK_PGD → k + 8 ≤ THREAD_SEPC ∨ THREAD_SEPC + 8 ≤ k →
    ld 8 m' (c * 4096 + k) = ld 8 m (c * 4096 + k)) : Newborn img m' c i := by
  constructor
  case counter => rw [hs _ (by decide) (by decide), h.counter]
  case min =>
    rw [hs _ (by decide) (by decide)]
    exact h.min
  case max =>
    rw [hs _ (by decide) (by decide)]
    exact h.max
  case pid => rw [hs _ (by decide) (by decide), h.pid]
  case ra => rw [hs _ (by decide) (by decide), h.ra]
  case sp => rw [hs _ (by decide) (by decide), h.sp]
  case s =>
    intro k hk
    rw [Nat.add_assoc, hs _ (by simp only [THREAD_S, TASK_PGD]; omega) (.inl (by simp only [THREAD_S, THREAD_SEPC]; omega)),
      ← Nat.add_assoc, h.s k hk]
  case sstatus => rw [hs _ (by decide) (by decide), h.sstatus]
  case sscratch => rw [hs _ (by decide) (by decide), h.sscratch]

/-- A page is taken that stays without a role. -/
theorem Spawned.take (hs : Spawned img s t j c d w) {e : Nat} (he : Taken img t u e) :
    Spawned img s u j c d w := by
  have hlive : ∀ f, img.Ram f → t.ref f ≠ 0 → u.ref f = t.ref f := fun f hf hne => he.ref hf hne
  exact
    { hs with
      task := by rw [he.tasks.task, hs.task]
      current := he.tasks.current.trans hs.current
      idle := he.tasks.idle.trans hs.idle
      satp := he.tasks.satp.trans hs.satp
      vma := he.tasks.vma.trans hs.vma
      pages := he.pages
      refPage := by rw [hlive c hs.ramPage (by rw [hs.refPage]; exact Nat.one_ne_zero), hs.refPage]
      refRoot := by rw [hlive d hs.ramRoot (by rw [hs.refRoot]; exact Nat.one_ne_zero), hs.refRoot]
      ref := fun f hf hne => by rw [hlive f hf (by rw [hs.ref f hf hne]; exact hne), hs.ref f hf hne]
      frame := by rw [he.mem]; exact hs.frame
      pgd := by rw [he.mem]; exact hs.pgd
      mm := by rw [he.mem]; exact hs.mm
      kernel := by rw [he.mem]; exact hs.kernel
      sparing := hs.sparing.trans he.sparing }

/-- The head of the new task's list is stored. -/
theorem Spawned.setHead (hs : Spawned img s t j c d w) (v : Nat) :
    Spawned img s (t.withMem (sd 8 t.mem (c * 4096 + TASK_MM) v)) j c d (v % 2 ^ 64) := by
  have hframe : ∀ f, f ≠ c → SameFrame (sd 8 t.mem (c * 4096 + TASK_MM) v) t.mem f := fun f hf =>
    sameFrame_sd fun o ho => by simp only [TASK_MM]; omega
  exact
    { hs with
      frame := fun f hc hd => (hframe f hc).trans (hs.frame f hc hd)
      pgd := by
        rw [KState.withMem_mem, ld_sd_of_disjoint (by simp only [TASK_MM, TASK_PGD]; omega)]
        exact hs.pgd
      mm := ld_sd_self 8 t.mem (c * 4096 + TASK_MM) v
      kernel := fun o ho => (hframe d hs.ne.symm o ho).trans (hs.kernel o ho)
      sparing := hs.sparing.trans <| .withMem fun f _ h0 => hframe f <| by
        rintro rfl
        rw [hs.refPage] at h0
        cases h0 }

variable {i : Nat} {Q : Unit → KState → Prop} {E : Halt → KState → Prop}

/-- The round of `task_init` for an empty slot, up to `VMA_init`. -/
theorem ends_initTask (h : Paging img lay s) (h1 : 1 ≤ i) (hi : i < NR_TASKS) (hempty : s.task i = 0)
    (hfull : ∀ t, OutOfPages img t → Within 3 s t → E .null t)
    (hvma : ∀ t c d, Spawned img s t i c d 0 → t.trace = s.trace → Within 3 s t → Newborn img t.mem c i →
      Ends (vmaInit img (framePtr c)) t Q E) :
    Ends (initTask img i) s Q E := by
  rw [initTask]
  refine ends_bind.mpr (Ends.mono (Ends.and (allocPage_spec h.pages) (grows_allocPage.run s)) ?_ fun _ _ hno => hno.1.elim)
  rintro p u ⟨⟨rfl, rfl, hno⟩ | ⟨c, rfl, hc⟩, hwu⟩
  · refine ends_bind.mpr (ends_modify.mpr (ends_bind.mpr (ends_notNull.mpr ?_)))
    rw [if_pos rfl]
    exact hfull _ hno ⟨hwu.trace, hwu.size, hwu.inUse.trans (by omega)⟩
  refine ends_bind.mpr (ends_modify.mpr (ends_bind.mpr (ends_notNull.mpr ?_)))
  rw [if_neg (framePtr_ne_zero c)]
  refine ends_bind.mpr (rand_spec.mono ?_ fun _ _ hno => hno.elim)
  rintro number v ⟨seed, hv⟩
  -- the state after `rand`, apart from the bytes of the new page
  have hu : Enrolled s u v i (framePtr c) := by
    rw [hv]
    exact ⟨congrArg (fun f => Function.update f i (framePtr c)) hc.tasks.task, hc.tasks.current, hc.tasks.idle,
      hc.tasks.satp, hc.tasks.vma, rfl, hc.trace⟩
  have htrace : v.trace = s.trace := by rw [hv]; exact hc.trace
  have hmem : v.mem = s.mem := by rw [hv]; exact hc.mem
  rw [← v.withMem_self, hmem]
  have hstore : ∀ {o vs} {m : Mem} {α : Type} {f : Unit → K α} {Q : α → KState → Prop},
      o + 8 * vs.length ≤ 4096 → (∀ f, f ≠ c → SameFrame m s.mem f) →
      (∀ m', m' = sdWords m (c * 4096 + o) vs → (∀ f, f ≠ c → SameFrame m' s.mem f) → Ends (f ()) (v.withMem m') Q E) →
      Ends (storeWords img (framePtr c + o) vs >>= f) (v.withMem m) Q E := fun ho hm hQ =>
    ends_bind.mpr (ends_storeWords hc.ram ho fun m' he hm' => hQ m' he fun f hf => (hm' f hf).trans (hm f hf))
  rw [← Nat.add_zero (framePtr c)]
  refine hstore (Nat.le_of_ble_eq_true rfl) (fun _ _ => .refl _ _) fun m₁ e₁ h₁ => ?_
  rw [Nat.add_zero]
  refine hstore (Nat.le_of_ble_eq_true rfl) h₁ fun m₂ e₂ h₂ => hstore (Nat.le_of_ble_eq_true rfl) h₂ fun m₃ e₃ h₃ => ?_
  refine hstore (Nat.le_of_ble_eq_true rfl) h₃ fun m₄ e₄ h₄ => ?_
  have hborn : Newborn img m₄ c i := .of_stores hi e₁ e₂ e₃ e₄
  have hpages : (v.withMem m₄).Pages img := by
    rw [KState.Pages, KState.withMem_buddy, hu.buddy]
    exact hc.pages
  have hwv : ∀ {m : Mem}, Within 1 s (v.withMem m) := fun {m} =>
    hwu.trans (Within.of_eq (htrace.trans hc.trace.symm) hu.buddy) le_rfl
  refine ends_bind.mpr (((allocPage_spec hpages).and (grows_allocPage.run _)).mono ?_ fun _ _ hno => hno.1.elim)
  rintro q x ⟨⟨rfl, rfl, hno⟩ | ⟨d, rfl, hd⟩, hwx⟩
  · refine ends_bind.mpr ((ends_storeWord hc.ram (by decide)).mpr (ends_bind.mpr (ends_notNull.mpr ?_)))
    rw [if_pos rfl]
    exact hfull _ hno (hwv.mono (by decide))
  refine ends_bind.mpr ((ends_storeWord hc.ram (by decide)).mpr (ends_bind.mpr (ends_notNull.mpr ?_)))
  rw [if_neg (framePtr_ne_zero d)]
  have hcd : c ≠ d := by
    rintro rfl
    have hone : (v.withMem m₄).ref c = 0 := hd.free
    rw [KState.ref, KState.withMem_buddy, hu.buddy] at hone
    have := hc.taken
    rw [KState.ref, hone] at this
    exact Nat.zero_ne_one this
  have hswap : ∀ f, img.firstFree ≤ f → f ≠ img.swapperFrame := fun f hf => by
    have := img.swapperFrame_lt
    omega
  refine ends_bind.mpr (Ends.mono (copyRoot_spec hd.ram (by decide)) ?_ fun _ _ hno => hno.elim)
  rintro _ _ ⟨m, rfl, hout, hkernel⟩
  have hxm : x.mem = m₄ := hd.mem
  rw [KState.withMem_mem, hxm] at hout hkernel
  rw [KState.withMem_withMem]
  have hlt := framePtr_lt hd.ram (o := 0) (by omega)
  have hspawn : Spawned img s (x.withMem m) i c d (ld 8 m (c * 4096 + TASK_MM)) := by
    refine .of_taken hc h1 hi hempty ?_ hd ?_ ?_ rfl ?_
    · exact ⟨hu.task, hu.current, hu.idle, hu.satp, hu.vma, hu.buddy, hu.trace⟩
    · intro f hfc hfd o ho
      rw [hout _ (by omega), sd_outside (by simp only [TASK_PGD]; omega)]
      exact h₄ f hfc o ho
    · have hpgd : ld 8 m (c * 4096 + TASK_PGD) =
          ld 8 (sd 8 m₄ (c * 4096 + TASK_PGD) (framePtr d)) (c * 4096 + TASK_PGD) :=
        ld_congr fun y hlo hhi => hout y (by simp only [TASK_PGD] at hlo hhi; omega)
      rw [hpgd, ld_sd_self]
      rw [Nat.add_zero] at hlt
      exact Nat.mod_eq_of_lt hlt
    · intro o ho
      have hsc : img.swapperFrame ≠ c := (hswap c hc.above).symm
      rw [hkernel o (Nat.zero_le _) ho, sd_outside (by simp only [TASK_PGD]; omega)]
      exact h₄ _ hsc o ho
  have hxtrace : (x.withMem m).trace = s.trace := hd.trace.trans htrace
  have hwm : Within 2 s (x.withMem m) := (hwv.trans hwx le_rfl).trans (.of_eq rfl rfl) le_rfl
  refine ends_bind.mpr (((allocPage_spec hspawn.pages).and (grows_allocPage.run _)).mono ?_ fun _ _ hno => hno.1.elim)
  rintro q y ⟨⟨rfl, rfl, hno⟩ | ⟨e, rfl, he⟩, hwy⟩
  · refine ends_bind.mpr (ends_notNull.mpr ?_)
    rw [if_pos rfl]
    exact hfull _ hno (hwm.mono (by decide))
  refine ends_bind.mpr (ends_notNull.mpr ?_)
  rw [if_neg (framePtr_ne_zero e)]
  have hword : Ends (loadWord img (framePtr e + 0)) y (fun _ z => z = y) E :=
    (ends_loadWord he.ram (by decide)).mpr rfl
  rw [Nat.add_zero] at hword
  refine ends_bind.mpr (hword.mono ?_ fun _ _ hz => hz)
  rintro garbage _ rfl
  refine ends_bind.mpr ((ends_storeWord hc.ram (by decide)).mpr ?_)
  refine ends_bind.mpr ((ends_storeWord hc.ram (by decide)).mpr ?_)
  have hlast := ((hspawn.take he).setHead garbage).setHead 0
  refine hvma _ c d hlast (he.trace.trans hxtrace) ((hwm.trans hwy le_rfl).trans (.of_eq rfl rfl) le_rfl) ?_
  refine hborn.congr fun k hk _ => ?_
  have hsep : k + 8 ≤ 168 := hk
  rw [KState.withMem_mem, KState.withMem_mem, ld_sd_of_disjoint (by simp only [TASK_MM]; omega),
    ld_sd_of_disjoint (by simp only [TASK_MM]; omega), he.mem, KState.withMem_mem]
  refine (ld_congr fun y hlo hhi => hout y (by omega)).trans ?_
  rw [ld_sd_of_disjoint (by simp only [TASK_PGD]; omega)]

end Spawn

end ZjuOs
