import ZjuOs.KernelHalf
import ZjuOs.AllocatorLaws

/-!
The frames that page faults take: a fault on a page that was not mapped takes exactly the frames that the page table
uses from then on; each of the other two branches takes a frame that no page table ever uses.
-/
namespace ZjuOs
open Memory Exec Radix

/-- The page table with root `r` uses frame `f`: as a table below the root, or as the page of a user mapping. -/
def UsedBy (m : Mem) (r f : Nat) : Prop :=
  (∃ q, q ≠ [] ∧ q.length ≤ 2 ∧ Allowed UserSlot [] q ∧ descend pteFormat (tables m) r q = some f) ∨
    ∃ va, UserVa va ∧ (leafPte m r va).map pteFrame = some f

/-- `f` was taken by a page fault of a run in which no fault has hit a mapped page. -/
inductive Allocated (img : Image) (f : Nat) : KState → Prop
  | fault {s t : KState} {regs : PtRegs} : Reachable img FaultsUnmapped s → FaultsUnmapped s (.fault regs) →
      Step img s (.fault regs) t → img.Ram f → s.ref f = 0 → t.ref f ≠ 0 → Allocated img f t
  | step {s t : KState} {a : Act} : Allocated img f s → FaultsUnmapped s a → Step img s a t → Allocated img f t

section Used
variable {img : Image} {lay lay' : Layout} {s t : KState} {r va f i : Nat} {area : VmArea} {scause : Nat}

/-- The role of a frame that a page table uses. -/
theorem UsedBy.role (h : Paging img lay s) (hr : lay.role r = .table r []) (hu : UsedBy s.mem r f) :
    lay.role f = .data ∨ ∃ q, q ≠ [] ∧ lay.role f = .table r q := by
  rcases hu with ⟨q, hne, hlen, hq, hd⟩ | ⟨va, hva, hleaf⟩
  · have hown := h.owned.descend (own_eq_some.mpr hr) (by simpa using hlen) hq hd
    exact .inr ⟨q, hne, own_eq_some.mp hown⟩
  · obtain ⟨pte, hpte, rfl⟩ := Option.map_eq_some_iff.mp hleaf
    obtain ⟨-, -, -, -, -, hdata, -⟩ := h.of_leafPte hr hva hpte
    exact .inl hdata

theorem UsedBy.held (h : Paging img lay s) (hr : lay.role r = .table r []) (hu : UsedBy s.mem r f) : s.ref f ≠ 0 := by
  refine (h.held f ?_).2.2
  rcases hu.role h hr with hdata | ⟨q, -, hq⟩
  · rw [hdata]
    exact Role.noConfusion
  · rw [hq]
    exact Role.noConfusion

/-- Frames in use stay in use. -/
theorem Resolved.keeps (hres : Resolved img lay s r va area scause lay' t) (hf : img.Ram f) (hne : s.ref f ≠ 0) :
    t.ref f ≠ 0 := by
  cases hres with
  | demand _ _ _ _ _ _ hm _ _ => exact hm.live (fun _ hd => by cases hd) hf hne
  | own _ _ _ _ _ _ _ hm _ => exact hm.live (fun _ hd => by cases hd) hf hne
  | copy _ _ _ _ _ _ hmany _ _ _ _ _ _ hm _ _ _ _ =>
      refine hm.live (fun g hd => ?_) hf hne
      cases hd
      exact hmany

/-- A page that was not mapped: the frames taken are the ones newly used. -/
theorem Resolved.spent (h : Paging img lay s) (hr : lay.role r = .table r []) (hva : UserVa va)
    (hres : Resolved img lay s r va area scause lay' t) (hnone : leafPte s.mem r va = none) (hf : img.Ram f) :
    t.ref f ≠ 0 ↔ s.ref f ≠ 0 ∨ (UsedBy t.mem r f ∧ ¬ UsedBy s.mem r f) := by
  have hkeep := hres.keeps hf
  cases hres with
  | own old _ hold _ _ _ _ _ _ => rw [hnone] at hold; cases hold
  | copy old _ _ hold _ _ _ _ _ _ _ _ _ _ _ _ _ _ => rw [hnone] at hold; cases hold
  | demand g _ _ _ _ _ hm _ hspent =>
      have hr' : lay'.role r = .table r [] := by
        rw [hm.role r (by rw [hr]; exact Role.noConfusion), hr]
      refine ⟨fun ht => ?_, fun hor => hor.elim hkeep fun hused => hused.1.held hm.paging hr'⟩
      by_cases hz : s.ref f = 0
      · refine .inr ⟨?_, fun hused => hused.held h hr hz⟩
        rcases hspent f hf hz ht with rfl | ⟨q, hq, hlen, hall, hd⟩
        · refine .inr ⟨va, hva, ?_⟩
          rw [hm.leaf va rfl, Option.map_some, pteFrame_mk (demandPerm_lt.trans (by decide))]
        · refine .inl ⟨q, ?_, hlen, hall, hd⟩
          rintro rfl
          cases hd
          exact (h.table_held hr).2.2 hz
      · exact .inl hz

/-- A page that was mapped: a frame is taken that no page table uses. -/
theorem Resolved.leaks (h : Paging img lay s) (hres : Resolved img lay s r va area scause lay' t)
    (hsome : leafPte s.mem r va ≠ none) :
    ∃ f, img.Ram f ∧ s.ref f = 0 ∧ t.ref f ≠ 0 ∧ ∀ r', lay.role r' = .table r' [] → ¬ UsedBy t.mem r' f := by
  have hlost : ∀ {pte drop g}, Remapped img lay lay' s t r va pte drop → Leaked lay lay' s t g → pteFrame pte ≠ g →
      img.Ram g ∧ s.ref g = 0 ∧ t.ref g ≠ 0 ∧ ∀ r', lay.role r' = .table r' [] → ¬ UsedBy t.mem r' g := by
    intro pte drop g hm hl hne
    refine ⟨(hm.paging.held g (by rw [hl.data]; exact Role.noConfusion)).1, hl.unused, by rw [hl.one]; exact Nat.one_ne_zero,
      fun r' hr' hused => ?_⟩
    have hr'' : lay'.role r' = .table r' [] := by
      rw [hm.role r' (by rw [hr']; exact Role.noConfusion), hr']
    rcases hused with ⟨q, hq, hlen, hall, hd⟩ | ⟨va', hva', hleaf⟩
    · -- a table is no data frame
      have hown := own_eq_some.mp (hm.paging.owned.descend (own_eq_some.mpr hr'') (by simpa using hlen) hall hd)
      rw [hl.data] at hown
      cases hown
    · by_cases hsame : r' = r ∧ va' / 4096 % 2 ^ 27 = va / 4096 % 2 ^ 27
      · rw [hsame.1, hm.leaf va' hsame.2, Option.map_some] at hleaf
        exact hne (Option.some.inj hleaf)
      · have hor : r' ≠ r ∨ va' / 4096 % 2 ^ 27 ≠ va / 4096 % 2 ^ 27 := by
          by_cases hrr : r' = r
          · exact .inr fun hp => hsame ⟨hrr, hp⟩
          · exact .inl hrr
        rw [hm.others r' va' hr' hva' hor] at hleaf
        exact (UsedBy.held h hr' (.inr ⟨va', hva', hleaf⟩)) hl.unused
  cases hres with
  | demand g hnone _ _ _ _ _ _ _ => exact absurd hnone hsome
  | own old g hold _ _ hone hl hm _ =>
      refine ⟨g, hlost hm hl ?_⟩
      rw [pteFrame_setW]
      rintro rfl
      rw [hl.unused] at hone
      cases hone
  | copy old g g₁ hold _ _ _ _ _ _ _ hl hne hm _ _ _ _ =>
      refine ⟨g₁, hlost hm hl ?_⟩
      rw [pteFrame_mk (copyPerm_lt.trans (by decide))]
      exact hne.symm

end Used

section Steps
variable {img : Image} {lay lay' : Layout} {s t : KState} {r d va f i pte : Nat} {vs : List Nat} {a : Act}

/-- Sharing a page changes no mapping of the other address spaces, and no frame of the parent's. -/
theorem Shared.target (h : Paging img lay s) (hm : Shared img lay lay' s t r d va pte) {r' va' : Nat}
    (hr' : lay.role r' = .table r' []) (hd : r' ≠ d) (hva : UserVa va') :
    (leafPte t.mem r' va').map pteFrame = (leafPte s.mem r' va').map pteFrame := by
  by_cases hsame : r' = r ∧ va' / 4096 % 2 ^ 27 = va / 4096 % 2 ^ 27
  · obtain ⟨rfl, hpage⟩ := hsame
    have hold : leafPte s.mem r' va' = some pte := (leafPte_page hpage).trans hm.old
    obtain ⟨l, hl⟩ := h.slot hr' hva hold
    rw [hm.parent va' hpage, hold, Option.map_some, Option.map_some, pteFrame_clearW hl.lt]
  · rw [hm.others r' va' hr' hva]
    rintro ⟨hor, hpage⟩
    exact hsame ⟨hor.resolve_right hd, hpage⟩

theorem Shares.target (h : Paging img lay s) (hr : lay.role r = .table r []) (hs : Shares img r d lay s vs lay' t)
    {r' va' : Nat} (hr' : lay.role r' = .table r' []) (hd : r' ≠ d) (hva : UserVa va') :
    (leafPte t.mem r' va').map pteFrame = (leafPte s.mem r' va').map pteFrame := by
  induction hs with
  | nil => rfl
  | snoc hs hshare ih =>
      have hk := hs.kept h hr
      rw [hshare.target hk.paging (by rw [hk.role r' (by rw [hr']; exact Role.noConfusion), hr']) hd hva, ih]

theorem CowForked.target {l : List Nat} {n : Int} (h : Paging img lay s) (hi : s.Live i)
    (hf : CowForked img lay s i l n lay' t) {r' : Nat} (hr' : lay.role r' = .table r' []) (hva : UserVa va) :
    (leafPte t.mem r' va).map pteFrame = (leafPte s.mem r' va).map pteFrame := by
  cases hf with
  | full _ _ _ hc => rw [hc.leaves r' va hr' hva]
  | child j c d u v _ hs hsh ht =>
      have hp := hs.paging h
      have hspawn := hs.carried h
      obtain ⟨hi', hroot⟩ := hspawn.live i hi
      have hd : r' ≠ d := by
        rintro rfl
        exact (h.table_held hr').2.2 hs.freeRoot
      rw [ht, KState.log_mem, hsh.target hp (by rw [← hroot]; exact (hp.task_ok hi').root) (hspawn.table _ _ _ hr') hd hva,
        hs.leaves h hr' hva]

/-- As long as no fault hits a mapped page, the frames that a page table uses stay the same. -/
theorem Stepped.usedBy (h : RunInv img lay s) (hok : FaultsUnmapped s a) (hs : Stepped img lay s a lay' t)
    (hr : lay.role r = .table r []) (hu : UsedBy s.mem r f) : UsedBy t.mem r f := by
  have hc := hs.carried h
  refine hu.imp (fun ⟨q, hne, hlen, hq, hd⟩ => ⟨q, hne, hlen, hq, ?_⟩) fun ⟨va, hva, hleaf⟩ => ⟨va, hva, ?_⟩
  · exact hc.inner.descend h.paging.owned hr (by simpa using hlen) hq hd
  · cases hs with
    | stay => exact hleaf
    | switch _ _ _ hmem _ _ _ _ =>
        rw [hmem]
        exact hleaf
    | @fault i p regs l _ _ hrun _ _ _ hres =>
        have hnone := hok _ rfl _ ⟨hrun.live, hrun.current⟩
        rw [h.paging.root_eq hrun.live] at hnone
        cases hres with
        | demand g _ _ _ _ _ hm _ _ =>
            rw [hm.others r va hr hva, hleaf]
            by_contra hno
            rw [not_or, not_ne_iff, not_ne_iff] at hno
            rw [hno.1, leafPte_page hno.2, hnone] at hleaf
            cases hleaf
        | own old _ hold _ _ _ _ _ _ => rw [hnone] at hold; cases hold
        | copy old _ _ hold _ _ _ _ _ _ _ _ _ _ _ _ _ _ => rw [hnone] at hold; cases hold
    | fork hrun _ hf =>
        rw [hf.target h.paging hrun.live hr hva]
        exact hleaf
    | store _ _ _ _ hkeep =>
        exact (congrArg _ (h.paging.leafPte_congr hkeep hr hva)).trans hleaf
    | kernel hkeep _ _ =>
        exact (congrArg _ (h.paging.leafPte_congr hkeep hr hva)).trans hleaf

end Steps

section Runs
variable {img : Image} {s : KState} {f : Nat}

/-- A frame that a fault has taken stays in use by the page table of a task. -/
theorem Allocated.used (h : Allocated img f s) (hclean : TablesClean s.trace) :
    ∃ lay, RunInv img lay s ∧ ∃ i, s.Live i ∧ UsedBy s.mem (lay.root i) f := by
  induction h with
  | @fault s t regs hreach hok hs hf hz hne =>
      obtain ⟨lay, hinv⟩ := hreach.inv (hclean.suffix hs.trace_suffix)
      obtain ⟨lay', hstep, hinv'⟩ := hinv.step hs hclean
      refine ⟨lay', hinv', ?_⟩
      have hcarried := hstep.carried hinv
      cases hstep with
      | @fault i p _ l _ _ hrun hl hsel _ hres =>
          have hnone := hok _ rfl _ ⟨hrun.live, hrun.current⟩
          rw [hinv.paging.root_eq hrun.live] at hnone
          have hroot := (hinv.paging.task_ok hrun.live).root
          have hiff := hres.spent hinv.paging hroot (hl.userVa hsel) hnone hf
          obtain ⟨hlive, hroot'⟩ := hcarried.live i hrun.live
          exact ⟨i, hlive, hroot' ▸ ((hiff.mp hne).resolve_left fun hno => hno hz).1⟩
  | @step s t a _ hok hs ih =>
      obtain ⟨lay, hinv, i, hi, hused⟩ := ih (hclean.suffix hs.trace_suffix)
      obtain ⟨lay', hstep, hinv'⟩ := hinv.step hs hclean
      obtain ⟨hlive, hroot⟩ := (hstep.carried hinv).live i hi
      exact ⟨lay', hinv', i, hlive, hroot ▸ hstep.usedBy hinv hok (hinv.paging.task_ok hi).root hused⟩

/-- The frames in use after a call of the fault handler are those before it and the ones that the running task's page
table newly uses. -/
def Accounted (img : Image) (r : Nat) (s t : KState) : Prop :=
  ∀ f, img.Ram f → (t.ref f ≠ 0 ↔ s.ref f ≠ 0 ∨ (UsedBy t.mem r f ∧ ¬ UsedBy s.mem r f))

theorem accounted_iff {t : KState} {i : Nat} {regs : PtRegs} (hreach : Reachable img (fun _ _ => True) s) (hi : s.Runs i)
    (hrun : (doPageFault img regs).run s = .ok () t) (hclean : TablesClean s.trace) (hnew : Fresh img s ∨ TablesClean t.trace) :
    Accounted img (s.root i) s t ↔ leafPte s.mem (s.root i) regs.stval = none := by
  obtain ⟨lay, hinv⟩ := hreach.inv hclean
  obtain ⟨l, hl⟩ := hinv.areas i hi.1
  rw [← hinv.paging.mmap_eq hi.1] at hl
  obtain ⟨p, lay', hsel, -, hres⟩ :=
    (doPageFault_spec hinv.paging id (hinv.running hi) hl).of_ok hrun hnew
  have hroot := (hinv.paging.task_ok hi.1).root
  rw [hinv.paging.root_eq hi.1]
  refine ⟨fun hacc => ?_, fun hnone f hf => hres.spent hinv.paging hroot (hl.userVa hsel) hnone hf⟩
  by_contra hsome
  obtain ⟨f, hf, hz, hne, hunused⟩ := hres.leaks hinv.paging hsome
  exact ((hacc f hf).mp hne).elim (fun hno => hno hz) fun hused => hunused _ hroot hused.1

/-- A resolved fault accounts for the frames it has taken exactly when the page was not mapped; and in every run in which
no fault hits a mapped page, every frame that a fault has taken is in use by the page table of a task. -/
theorem faults_accounted (img : Image) :
    (∀ s t i regs, Reachable img (fun _ _ => True) s → s.Runs i → (doPageFault img regs).run s = .ok () t →
      TablesClean s.trace → Fresh img s ∨ TablesClean t.trace → (Accounted img (s.root i) s t ↔ leafPte s.mem (s.root i) regs.stval = none)) ∧
    ∀ f s, Allocated img f s → TablesClean s.trace → ∃ i, s.Live i ∧ UsedBy s.mem (s.root i) f := by
  refine ⟨fun s t i regs hreach hi hrun hclean hnew => accounted_iff hreach hi hrun hclean hnew, fun f s h hclean => ?_⟩
  obtain ⟨lay, hinv, i, hi, hused⟩ := h.used hclean
  exact ⟨i, hi, (hinv.paging.root_eq hi).symm ▸ hused⟩

/-- A demand fault of the board takes a frame, and accounts for it. -/
theorem faults_accounted_board : ∃ s t f, s.Runs 1 ∧ (doPageFault board ⟨LOAD_FAULT, 0x1000⟩).run s = .ok () t ∧
    Accounted board (s.root 1) s t ∧ s.ref f = 0 ∧ t.ref f ≠ 0 ∧ ∃ i, t.Live i ∧ UsedBy t.mem (t.root i) f := by
  obtain ⟨lay, s, p, lay', t, h, -, hstart, hleaf, -, hrun, -, hres, hroom⟩ := board_loaded (n := 0) (Nat.zero_le _)
  have hroot := h.room.inv.paging.root_eq h.runs.1
  have hunmapped : FaultsUnmapped s (.fault ⟨LOAD_FAULT, 0x1000⟩) := by
    intro regs hregs i hi
    cases hregs
    rw [h.room.inv.paging.runs_unique hi h.runs, hroot]
    exact hleaf
  have hreach := hstart FaultsUnmapped fun _ _ regs hregs => by cases hregs
  have hacc := ((faults_accounted board).1 s t 1 _ h.reach h.runs hrun h.room.clean (.inl h.room.fresh)).mpr (by rw [hroot]; exact hleaf)
  cases hres with
  | demand g _ _ hz hdata hone hm _ _ =>
      have hne : t.ref g ≠ 0 := by
        rw [hone]
        exact Nat.one_ne_zero
      have hram := (hm.paging.held g (by rw [hdata]; exact Role.noConfusion)).1
      have hused := (faults_accounted board).2 g t (.fault hreach hunmapped (.fault h.runs hrun) hram hz hne) hroom.clean
      exact ⟨s, t, g, h.runs, hrun, hacc, hz, hne, hused⟩
  | own old _ hold _ _ _ _ _ _ => rw [hleaf] at hold; cases hold
  | copy old _ _ hold _ _ _ _ _ _ _ _ _ _ _ _ _ _ => rw [hleaf] at hold; cases hold

/-- A copy-on-write fault takes a frame that it does not account for. -/
theorem faults_leak_board : ¬ ∀ s t i regs, Reachable board (fun _ _ => True) s → s.Runs i →
    (doPageFault board regs).run s = .ok () t → TablesClean s.trace → Fresh board s → Accounted board (s.root i) s t := by
  intro hall
  obtain ⟨lay, lay', s, t, p, g, h, hleaf, -, -, hroom, hrun, hres⟩ := board_copied
  obtain ⟨f, hf, hz, hne, hunused⟩ := hres.leaks h.room.inv.paging (by rw [hleaf]; exact Option.some_ne_none _)
  have hroot := (h.room.inv.paging.task_ok h.runs.1).root
  have hacc := hall s t 1 _ h.reach h.runs hrun h.room.clean h.room.fresh
  rw [h.room.inv.paging.root_eq h.runs.1] at hacc
  exact ((hacc f hf).mp hne).elim (fun hno => hno hz) fun hused => hunused _ hroot hused.1

end Runs

section Refused
variable {img : Image} {lay : Layout} {s t : KState} {i k regs : Nat}

/-- Fork calls, and context switches between them. -/
inductive Refusals (img : Image) (s : KState) : Nat → KState → Prop
  | nil : Refusals img s 0 s
  | fork {k regs : Nat} {t u : KState} : Refusals img s k t → Step img t (.fork regs) u → Refusals img s (k + 1) u
  | switch {k j : Nat} {t u : KState} : Refusals img s k t → Step img t (.switch j) u → Refusals img s k u

/-- A refused fork keeps the page that it has taken for the child. -/
structure ForkRefused (img : Image) (s t : KState) : Prop where
  tasks : SameTasks s t
  trace : t.trace = s.trace
  pages : t.Pages img
  inUse : t.buddy.inUse = s.buddy.inUse + 1

theorem RunInv.refused (h : RunInv img lay s) (hfull : ∀ j, j < NR_TASKS → s.task j ≠ 0) (hi : s.Runs i)
    (hregs : regs < 2 ^ 64) (hframe : InFrame regs) :
    Ends (doCowFork img regs) s (fun n t => n = -1 ∧ ForkRefused img s t)
      fun e t => e = .null ∧ OutOfPages img t ∧ 2 ^ img.order < s.buddy.inUse + 1 := by
  have hr := h.running hi
  have hone : childNeeds s.task = 1 := if_pos (freeSlot_eq_none hfull)
  rw [doCowFork]
  have hchild := cowChild_counted h.paging hr h.idle_ne hregs hframe
  rw [hone] at hchild
  refine ends_bind.mpr (hchild.mono ?_ fun _ _ he => he)
  rintro o t ⟨huse, ⟨rfl, -, c, -, htrace, hcalm⟩ | ⟨j, c, d, -, hs⟩⟩
  · exact ends_pure.mpr ⟨rfl, hcalm.tasks, htrace, hcalm.paging.pages, huse⟩
  · exact absurd hs.empty (hfull j hs.lt)

theorem Buddy.inUse_congr {b b' : Buddy} (hsize : b'.size = b.size) (h : SameTables b b') : b'.inUse = b.inUse := by
  rw [Buddy.inUse, Buddy.inUse, hsize]
  refine congrArg Finset.card (Finset.filter_congr fun p hp => ?_)
  rw [h.2 p (Finset.mem_range.mp hp)]

/-- What `k` fork calls have changed by then. -/
structure RefusedRun (img : Image) (s : KState) (k : Nat) (t : KState) : Prop where
  inv : ∃ lay, RunInv img lay t
  full : ∀ j, j < NR_TASKS → t.task j ≠ 0
  inUse : t.buddy.inUse = s.buddy.inUse + k

theorem Refusals.run (hinv : RunInv img lay s) (hfull : ∀ j, j < NR_TASKS → s.task j ≠ 0) (hclean : TablesClean s.trace)
    (h : Refusals img s k t) : RefusedRun img s k t ∧ TablesClean t.trace := by
  induction h with
  | nil => exact ⟨⟨⟨lay, hinv⟩, hfull, rfl⟩, hclean⟩
  | fork _ hstep ih =>
      obtain ⟨⟨⟨lay', hinv'⟩, hfull', huse⟩, hclean'⟩ := ih
      cases hstep with
      | fork hi hregs hframe hrun =>
          obtain ⟨-, href⟩ := (hinv'.refused hfull' hi hregs hframe).of_ok hrun
          have htrace := hclean'
          rw [← href.trace] at htrace
          obtain ⟨lay'', -, hinv''⟩ := hinv'.fork hi hregs hframe hrun htrace
          refine ⟨⟨⟨lay'', hinv''⟩, fun j hj => ?_, ?_⟩, htrace⟩
          · rw [href.tasks.task]
            exact hfull' j hj
          · rw [href.inUse, huse, Nat.add_assoc]
  | switch _ hstep ih =>
      obtain ⟨⟨⟨lay', hinv'⟩, hfull', huse⟩, hclean'⟩ := ih
      cases hstep with
      | switch hj hrun =>
          obtain ⟨hstepped, hinv''⟩ := hinv'.switch hj hrun
          cases hstepped with
          | stay => exact ⟨⟨⟨lay', hinv''⟩, hfull', huse⟩, hclean'⟩
          | switch _ _ _ hmem hbuddy htasks _ htrace =>
              refine ⟨⟨⟨lay', hinv''⟩, by rwa [htasks], by rwa [hbuddy]⟩, fun page m hm => ?_⟩
              rw [htrace] at hm
              exact hclean' page m ((List.mem_cons.mp hm).resolve_left Event.noConfusion)

/-- With `task[]` full each fork call returns -1 and loses a page, as long as a page is free; with none left it does not
return. -/
theorem refused_forks (h : Reachable img (fun _ _ => True) s) (hclean : TablesClean s.trace)
    (hfull : ∀ j, j < NR_TASKS → s.task j ≠ 0) (hrun : Refusals img s k t) :
    t.buddy.inUse = s.buddy.inUse + k ∧ (0 < k → ¬ SameTables s.buddy t.buddy) ∧
      ∀ i regs, t.Runs i → regs < 2 ^ 64 → InFrame regs →
        Ends (doCowFork img regs) t (fun n u => n = -1 ∧ u.buddy.inUse = t.buddy.inUse + 1 ∧ ¬ SameTables t.buddy u.buddy)
          fun e u => e = .null ∧ OutOfPages img u := by
  obtain ⟨lay, hinv⟩ := h.inv hclean
  obtain ⟨⟨⟨lay', hinv'⟩, hfull', huse⟩, -⟩ := hrun.run hinv hfull hclean
  have hsize := hinv.paging.pages.size
  have hsize' := hinv'.paging.pages.size
  refine ⟨huse, fun hk hsame => ?_, fun i regs hi hregs hframe => ?_⟩
  · have heq := Buddy.inUse_congr (hsize'.trans hsize.symm) hsame
    omega
  · refine (hinv'.refused hfull' hi hregs hframe).mono (fun n u hu => ⟨hu.1, hu.2.inUse, fun hsame => ?_⟩)
      fun _ _ he => ⟨he.1, he.2.1⟩
    have hlost := hu.2.inUse
    have heq := Buddy.inUse_congr (hu.2.pages.size.trans hsize'.symm) hsame
    omega

/-- The board with a full `task[]`, and one more fork. -/
theorem board_refused : ∃ s t, Reachable board (fun _ _ => True) s ∧ TablesClean s.trace ∧
    (∀ j, j < NR_TASKS → s.task j ≠ 0) ∧ Refusals board s 1 t ∧ t.buddy.inUse = s.buddy.inUse + 1 ∧
    ¬ SameTables s.buddy t.buddy := by
  obtain ⟨lay, s, h, hfull⟩ := board_full (n := 8) (by decide)
  obtain ⟨l, m, lay', t, r, -, -, -, -, hstep, -⟩ := (show OnBoard lay s (0 + 8) s.userPte from h).fork
  have hrun : Refusals board s 1 t := .fork .nil hstep
  obtain ⟨⟨⟨lay', hinv⟩, -, huse⟩, -⟩ := hrun.run h.room.inv hfull h.room.clean
  refine ⟨s, t, h.reach, h.room.clean, hfull, hrun, huse, fun hsame => ?_⟩
  have heq := Buddy.inUse_congr (hinv.paging.pages.size.trans h.room.inv.paging.pages.size.symm) hsame
  omega

theorem refused_forks_board : ∃ s t, Refusals board s 1 t ∧ t.buddy.inUse = s.buddy.inUse + 1 := by
  obtain ⟨s, t, hreach, hclean, hfull, hrun, -⟩ := board_refused
  exact ⟨s, t, hrun, (refused_forks hreach hclean hfull hrun).1⟩

/-- The eighth fork of task 1. -/
theorem refused_forks_lose : ¬ ∀ s, Reachable board (fun _ _ => True) s → TablesClean s.trace →
    (∀ j, j < NR_TASKS → s.task j ≠ 0) → ∀ k t, Refusals board s k t → SameTables s.buddy t.buddy := by
  intro hall
  obtain ⟨s, t, hreach, hclean, hfull, hrun, -, hlost⟩ := board_refused
  exact hlost (hall s hreach hclean hfull 1 t hrun)

end Refused

end ZjuOs
