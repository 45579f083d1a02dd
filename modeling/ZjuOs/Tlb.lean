import ZjuOs.Accounting

/-!
The address-translation cache: it may keep every translation that was in the page table at or after the last
`sfence.vma`. A resolved fault on a page that was not mapped leaves nothing stale; the two copy-on-write branches do.
-/
namespace ZjuOs
open Memory Exec

/-- The memories that translations may have been read from since the last fence. -/
def sinceFence : List Event → List Mem
  | [] => []
  | .table _ _ :: l => sinceFence l
  | .edit _ m :: l => m :: sinceFence l
  | .fence m :: _ => [m]

/-- The cache may hold `x` as the translation of `va`. -/
def KState.Keeps (s : KState) (va : Nat) (x : Nat × Nat) : Prop :=
  ∃ m ∈ sinceFence s.trace, translate m (satpRoot s.satp) va = some x

/-- No access of a user program can use a translation that differs from the page table. -/
def NoStale (s : KState) : Prop :=
  ∀ i, s.Runs i → ∀ va x, va < 2 ^ 38 → s.Keeps va x → translate s.mem (satpRoot s.satp) va = some x

/-- The page of a fault is not mapped. -/
def FaultsUnmapped (s : KState) (a : Act) : Prop :=
  ∀ regs, a = .fault regs → ∀ i, s.Runs i → leafPte s.mem (s.root i) regs.stval = none

section Events
variable {s t : KState} {P : Mem → Prop} {m : Mem}

theorem Logged.since (h : Logged s t P) (hm : m ∈ sinceFence t.trace) : m ∈ sinceFence s.trace ∨ P m := by
  obtain ⟨evs, htrace, hall⟩ := h
  rw [htrace] at hm
  clear htrace
  induction evs with
  | nil => exact .inl hm
  | cons e evs ih =>
      have hrest := fun hm => ih hm fun e' he => hall e' (List.mem_cons_of_mem _ he)
      rcases hall e List.mem_cons_self with ⟨page, m', rfl⟩ | ⟨pa, m', rfl, hm'⟩
      · exact hrest hm
      · rcases List.mem_cons.mp hm with rfl | hm
        · exact .inr hm'
        · exact hrest hm

/-- What is logged behind a fence does not remove the memory of the fence. -/
theorem Logged.fenced {l : List Event} (h : Logged s t P) (hs : s.trace = .fence m :: l) : m ∈ sinceFence t.trace := by
  obtain ⟨evs, htrace, hall⟩ := h
  rw [htrace, hs]
  clear htrace
  induction evs with
  | nil => exact List.mem_singleton.mpr rfl
  | cons e evs ih =>
      have hrest := ih fun e' he => hall e' (List.mem_cons_of_mem _ he)
      rcases hall e List.mem_cons_self with ⟨page, m', rfl⟩ | ⟨pa, m', rfl, -⟩
      · exact hrest
      · exact List.mem_cons_of_mem _ hrest

end Events

section Steps
variable {img : Image} {lay lay' : Layout} {s t : KState} {i : Nat} {a : Act} {r va pte : Nat} {drop : Option Nat}

/-- Nothing is stale behind a fence. -/
theorem NoStale.fenced {l : List Event} (h : t.trace = .fence t.mem :: l) : NoStale t := by
  rintro i - va x - ⟨m, hm, hx⟩
  rw [h] at hm
  obtain rfl := List.mem_singleton.mp hm
  exact hx

/-- The user mappings and the events are the same. -/
theorem NoStale.same (h : NoStale s) (hinv : RunInv img lay s) (hsame : SameUser lay s t.mem) (hsatp : t.satp = s.satp)
    (htrace : t.trace = s.trace) (hruns : ∀ i, t.Runs i → s.Runs i) : NoStale t := by
  rintro i hi va x hva ⟨m, hm, hx⟩
  have hroot := (hinv.paging.task_ok (hruns i hi).1).root
  rw [← hinv.satp i (hruns i hi)] at hroot
  rw [htrace] at hm
  rw [hsatp] at hx ⊢
  rw [hsame _ va hroot hva]
  exact h i (hruns i hi) va x hva ⟨m, hm, hx⟩

/-- A page that was not mapped is mapped: whatever was translated before has the same translation. -/
theorem Remapped.translate_new (h : Paging img lay s) (hi : s.Live i)
    (hm : Remapped img lay lay' s t (lay.root i) va pte drop) (hnone : leafPte s.mem (lay.root i) va = none)
    {va' : Nat} {x : Nat × Nat} (hva : va' < 2 ^ 38) (hx : translate s.mem (lay.root i) va' = some x) :
    translate t.mem (lay.root i) va' = some x := by
  have hroot := (h.task_ok hi).root
  have hroot' : lay'.role (lay.root i) = .table (lay.root i) [] := by
    rw [hm.role _ (by rw [hroot]; exact Role.noConfusion), hroot]
  have hpage : va' / 4096 % 2 ^ 27 ≠ va / 4096 % 2 ^ 27 := by
    intro hpage
    rw [h.translate_user hroot hva, leafPte_page hpage, hnone] at hx
    cases hx
  rw [hm.paging.translate_user hroot' hva, hm.others _ va' hroot (.of_lt hva) (.inr hpage),
    ← h.translate_user hroot hva]
  exact hx

theorem NoStale.demanded (h : NoStale s) (hinv : RunInv img lay s) (hi : s.Runs i)
    (hm : Remapped img lay lay' s t (lay.root i) va pte drop) (hnone : leafPte s.mem (lay.root i) va = none)
    (hlog : Logged s t fun m => SameUser lay s m ∨ SameUser lay t m) : NoStale t := by
  rintro k - va' x hva ⟨m, hmem, hx⟩
  have hsatp : satpRoot t.satp = lay.root i := by rw [hm.tasks.satp, hinv.satp i hi]
  have hroot := (hinv.paging.task_ok hi.1).root
  rw [hsatp] at hx ⊢
  rcases hlog.since hmem with hold | hold | hnew
  · have hbefore := h i hi va' x hva ⟨m, hold, by rw [hinv.satp i hi]; exact hx⟩
    rw [hinv.satp i hi] at hbefore
    exact hm.translate_new hinv.paging hi.1 hnone hva hbefore
  · rw [hold _ va' hroot hva] at hx
    exact hm.translate_new hinv.paging hi.1 hnone hva hx
  · rwa [hnew _ va' hroot hva] at hx

theorem Stepped.noStale (hinv : RunInv img lay s) (h : NoStale s) (hok : FaultsUnmapped s a)
    (hs : Stepped img lay s a lay' t) (hinv' : RunInv img lay' t) : NoStale t := by
  cases hs with
  | stay => exact h
  | switch _ _ _ hmem _ _ _ htrace => exact .fenced (l := s.trace) (by rw [htrace, hmem])
  | fault hr _ _ _ hres =>
      have hi : s.Runs _ := ⟨hr.live, hr.current⟩
      have hnone := hok _ rfl _ hi
      rw [hinv.paging.root_eq hi.1] at hnone
      cases hres with
      | demand g _ _ _ _ _ hm hlog _ => exact h.demanded hinv hi hm hnone hlog
      | own old _ hold _ _ _ _ _ _ =>
          rw [hnone] at hold
          cases hold
      | copy old _ _ hold _ _ _ _ _ _ _ _ _ _ _ _ _ _ =>
          rw [hnone] at hold
          cases hold
  | fork hr _ hf =>
      cases hf with
      | full _ _ htrace hc =>
          exact h.same hinv (.of_leaves hinv.paging hc.paging hc.role hc.leaves) hc.tasks.satp htrace fun _ => hc.tasks.runs.mp
      | child j c d u v _ _ _ ht => exact .fenced (l := v.trace) (by rw [ht]; rfl)
  | store _ _ _ _ hkeep =>
      refine h.same hinv (.of_leaves hinv.paging hinv'.paging (fun _ _ => rfl) fun r va hr hva => ?_) rfl rfl fun _ hi => hi
      exact hinv.paging.leafPte_congr hkeep hr hva
  | kernel hkeep _ _ =>
      refine h.same hinv (.of_leaves hinv.paging hinv'.paging (fun _ _ => rfl) fun r va hr hva => ?_) rfl rfl fun _ hi => hi
      exact hinv.paging.leafPte_congr hkeep hr hva

end Steps

section Runs
variable {img : Image} {s : KState}

/-- In every run in which no page fault hits a mapped page, no access of a user program can use a stale translation. -/
theorem no_stale (h : Reachable img FaultsUnmapped s) (hclean : TablesClean s.trace) : NoStale s := by
  obtain ⟨lay, -, hp⟩ := h.rule (P := fun _ t => NoStale t) hclean
    (fun _ _ _ hs _ _ hi => absurd hi hs.idle_current) fun lay t a lay' u hinv hp hok hs hinv' =>
      hs.noStale hinv hp hok hinv'
  exact hp

/-- The fork behind a demand fault takes the W bit of the stack page away, and the cache keeps nothing of it. -/
theorem no_stale_board : ∃ s t r pte, Reachable board FaultsUnmapped s ∧ s.userPte (1, 2 ^ 26 - 1) = some pte ∧
    pte.testBit PTE_W = true ∧ Step board s (.fork r) t ∧ Reachable board FaultsUnmapped t ∧ TablesClean t.trace ∧
    t.Runs 1 ∧ t.userPte (1, 2 ^ 26 - 1) = some (clearW pte) ∧ NoStale t := by
  obtain ⟨lay, s, lay₁, t, r, lay₂, u, g, j, hj, h, hstart, hfault, hmapped, hfork, hforked, -, hg⟩ :=
    board_stack_forked (n := 0) (Nat.zero_le _)
  have hunmapped : FaultsUnmapped s (.fault ⟨STORE_FAULT, USER_END - PGSIZE⟩) := by
    intro regs hregs i hi
    cases hregs
    have hp := h.room.inv.paging
    rw [hp.runs_unique hi h.runs, hp.root_eq h.runs.1]
    exact h.leaf_va (.of_lt (Nat.le_of_ble_eq_true rfl))
  have hreach := (hstart FaultsUnmapped fun _ _ regs hregs => by cases hregs).step hunmapped hfault
  have hreach' : Reachable board FaultsUnmapped u := hreach.step (fun _ hregs => by cases hregs) hfork
  have hne : ((1, 2 ^ 26 - 1) : Nat × Nat) ≠ (j, 2 ^ 26 - 1) := fun he => hj (Prod.mk.inj he).1.symm
  have hlt : 2 ^ 10 * g + 0x17 < 2 ^ 64 := by
    have := hg.bounds
    omega
  have hclear : clearW (2 ^ 10 * g + 0x17) = 2 ^ 10 * g + 0x13 := by
    rw [clearW_eq hlt, pteFrame_mk (by decide), pteFlags_mk (by decide)]
    rfl
  refine ⟨t, u, r, 2 ^ 10 * g + 0x17, hreach, ?_, ?_, hfork, hreach', hforked.room.clean, hforked.runs, ?_, no_stale hreach' hforked.room.clean⟩
  · rw [hmapped.mapped, Function.update_self]
  · rw [testBit_pteFlags (by decide), pteFlags_mk (by decide)]
    decide
  · rw [hforked.mapped, Function.update_of_ne hne, Function.update_self, hclear]

/-- Task 1 gets its own copy of a page, and may still read the shared frame. -/
theorem stale_board : ∃ s, Reachable board (fun _ _ => True) s ∧ TablesClean s.trace ∧ ¬ NoStale s := by
  obtain ⟨lay, lay', s, t, p, g, h, hleaf, hthree, hreach, hroom, -, hres⟩ := board_copied
  have hp := h.room.inv.paging
  have hroot := (hp.task_ok h.runs.1).root
  have hlow : 0x1000 < 2 ^ 38 := Nat.le_of_ble_eq_true rfl
  refine ⟨t, hreach, hroom.clean, fun hno => ?_⟩
  cases hres with
  | demand _ hnone _ _ _ _ _ _ _ =>
      rw [hleaf] at hnone
      cases hnone
  | own old _ hold _ _ hone _ _ _ =>
      rw [hleaf] at hold
      cases hold
      rw [pteFrame_mk (by decide), hthree] at hone
      cases hone
  | copy old g' _ hold _ _ _ _ hfree _ _ _ _ hm _ _ _ hfence =>
      rw [hleaf] at hold
      cases hold
      obtain ⟨u, m, hsame, htrace, hlog⟩ := hfence
      have hsatp : satpRoot t.satp = lay.root 1 := by rw [hm.tasks.satp, h.room.inv.satp 1 h.runs]
      -- the fence was executed before the page was mapped to its copy
      have hbit : ∀ k, k < 10 → (2 ^ 10 * g + 0x13).testBit k = (0x13 : Nat).testBit k := fun k hk => by
        rw [testBit_pteFlags hk, pteFlags_mk (by decide)]
      have hbefore := hp.translate_user hroot hlow
      rw [hleaf, Option.bind_some, hwLeaf_readable (hbit 0 (by decide)) (hbit 1 (by decide)), ← hsame _ _ hroot hlow,
        ← hsatp] at hbefore
      have hafter := hno 1 (hm.tasks.runs.mpr h.runs) _ _ hlow ⟨m, hlog.fenced htrace, hbefore⟩
      have hroot' : lay'.role (lay.root 1) = .table (lay.root 1) [] := by
        rw [hm.role _ (by rw [hroot]; exact Role.noConfusion), hroot]
      rw [hsatp, hm.paging.translate_user hroot' hlow, hm.leaf _ rfl, Option.bind_some] at hafter
      have hflags := congrArg pteFlags (hwLeaf_some hafter)
      rw [pteFlags_mk (by decide), pteFlags_mk (copyPerm_lt.trans (by decide)), and_1f_eq, pteFlags_mk (by decide)] at hflags
      exact absurd hflags (by decide)

end Runs

end ZjuOs
