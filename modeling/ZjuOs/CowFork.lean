import ZjuOs.Spawn

/-! `do_cow_fork`: the new task, and the pages it shares with its parent. -/
namespace ZjuOs
open Memory Exec Radix

/-- The pages `vs` have been shared one after the other between the address spaces `r` and `d`. -/
inductive Shares (img : Image) (r d : Nat) (lay : Layout) (s : KState) : List Nat → Layout → KState → Prop
  | nil : Shares img r d lay s [] lay s
  | snoc {vs : List Nat} {lay' lay'' : Layout} {t u : KState} {va pte : Nat} :
      Shares img r d lay s vs lay' t → Shared img lay' lay'' t u r d va pte →
      Shares img r d lay s (vs ++ [va]) lay'' u

/-- What is kept while pages are shared. -/
structure Kept (img : Image) (lay lay' : Layout) (s t : KState) (r n : Nat) : Prop where
  paging : Paging img lay' t
  role : ∀ f, lay.role f ≠ .other → lay'.role f = lay.role f
  added : ∀ f, lay.role f = .other → lay'.role f ≠ .other → s.ref f = 0 ∧ ∃ r p, lay'.role f = .table r p
  page : lay'.page = lay.page
  root : lay'.root = lay.root
  ref : ∀ f, img.Ram f → s.ref f ≠ 0 → s.ref f ≤ t.ref f ∧ t.ref f ≤ s.ref f + n
  frame : ∀ f, (∀ r p, lay'.role f ≠ .table r p) → SameFrame t.mem s.mem f
  inner : InnerKept lay s.mem t.mem
  mapped : ∀ va, UserVa va → (leafPte t.mem r va).isSome = (leafPte s.mem r va).isSome
  tasks : SameTasks s t
  sparing : Sparing img s t

section Shares
variable {img : Image} {lay lay' : Layout} {s t : KState} {r d : Nat} {vs : List Nat}

theorem Shares.nil_inv (h : Shares img r d lay s [] lay' t) : lay' = lay ∧ t = s := by
  generalize hvs : ([] : List Nat) = vs at h
  cases h with
  | nil => exact ⟨rfl, rfl⟩
  | snoc => simp at hvs

theorem Shares.snoc_inv {lay'' : Layout} {u : KState} {va : Nat} (vs : List Nat) (h : Shares img r d lay s (vs ++ [va]) lay'' u) :
    ∃ lay' t pte, Shares img r d lay s vs lay' t ∧ Shared img lay' lay'' t u r d va pte := by
  generalize hvs : vs ++ [va] = ws at h
  cases h with
  | nil => simp at hvs
  | snoc hs hshare =>
      obtain ⟨rfl, hva⟩ := List.append_inj' hvs rfl
      obtain rfl := List.singleton_inj.mp hva
      exact ⟨_, _, _, hs, hshare⟩

theorem Shares.kept (h : Paging img lay s) (hr : lay.role r = .table r [])
    (hs : Shares img r d lay s vs lay' t) : Kept img lay lay' s t r vs.length := by
  induction hs with
  | nil =>
      exact ⟨h, fun _ _ => rfl, fun _ h0 h1 => absurd h0 h1, rfl, rfl, fun _ _ _ => ⟨Nat.le_refl _, Nat.le_add_right _ _⟩,
        fun _ _ => .refl _ _, .refl, fun _ _ => rfl, .refl s, .refl s⟩
  | @snoc vs lay' lay'' t u va pte _ hshare ih =>
      have hold : ∀ f, lay.role f ≠ .other → lay''.role f = lay.role f := fun f hf => by
        rw [hshare.role f (by rw [ih.role f hf]; exact hf), ih.role f hf]
      have htable : ∀ f r p, lay.role f = .table r p → lay'.role f = .table r p := fun f r p hp => by
        rw [ih.role f (by rw [hp]; exact Role.noConfusion), hp]
      refine ⟨hshare.paging, hold, ?_, hshare.page.trans ih.page, hshare.root.trans ih.root, ?_, ?_,
        ih.inner.trans htable hshare.inner, ?_, ih.tasks.trans hshare.tasks, ih.sparing.trans hshare.sparing⟩
      · intro f h0 h2
        by_cases h1 : lay'.role f = .other
        · obtain ⟨hzero, r', p', hp⟩ := hshare.added f h1 h2
          refine ⟨?_, r', p', hp⟩
          by_contra hne
          have hle := (ih.ref f (hshare.paging.table_ram hp) hne).1
          omega
        · obtain ⟨hzero, r', p', hp⟩ := ih.added f h0 h1
          exact ⟨hzero, r', p', by rw [hshare.role f h1, hp]⟩
      · intro f hf hne
        obtain ⟨hlo, hhi⟩ := ih.ref f hf hne
        rw [hshare.ref f hf (by omega), List.length_append, List.length_singleton]
        split <;> omega
      · intro f hf
        refine (hshare.frame f hf).trans (ih.frame f fun r p hp => hf r p ?_)
        rw [hshare.role f (by rw [hp]; exact Role.noConfusion), hp]
      · intro va' hva'
        rw [← ih.mapped va' hva']
        by_cases hpage : va' / 4096 % 2 ^ 27 = va / 4096 % 2 ^ 27
        · rw [hshare.parent va' hpage, leafPte_page hpage, hshare.old]
          rfl
        · rw [hshare.others r va' (by rw [ih.role r (by rw [hr]; exact Role.noConfusion), hr]) hva'
            fun hno => hpage hno.2]

end Shares

section CowFork
variable {img : Image} {lay : Layout} {s : KState} {i j regs : Nat} {l : List Nat} {fresh : Prop}

/-- The mapped pages in the order in which a fork of task `i` visits them. -/
def visits (vma : Nat → VmArea) (m : Mem) (root : Nat) (l : List Nat) : List Nat :=
  (l.flatMap fun p => (vma p).pages).filter fun va => (leafPte m root va).isSome

/-- The pages that the loops of a fork look at. -/
def looked (vma : Nat → VmArea) (l : List Nat) : Nat := (l.flatMap fun p => (vma p).pages).length

/-- Task `i` has shared the pages `done` with task `j`. -/
structure ShareRun (img : Image) (lay : Layout) (s : KState) (i j : Nat) (done : List Nat) (t : KState) : Prop where
  shares : ∃ lay', Shares img (lay.root i) (lay.root j) lay s done lay' t
  made : WaysMade UserSlot (lay.root j) s.mem t.mem (waysTo done)
  inUse : t.buddy.inUse = s.buddy.inUse + (absent s.mem (lay.root j) (waysTo done)).card
  within : Within (2 * done.length) s t

theorem ShareRun.nil : ShareRun img lay s i j [] s := ⟨⟨lay, .nil⟩, .refl, rfl, .of_eq rfl rfl⟩

theorem shareLoop (h : Paging img lay s) (hfresh : fresh → Fresh img s) (hr : Running lay s i) (h1 : 1 ≤ j) (hj : j < NR_TASKS)
    (hne : s.task j ≠ 0) (hij : i ≠ j) {all : List Nat} (hN : ∀ f, lay.role f = .data → s.ref f + all.length < 2 ^ 64) :
    PageRule fresh img (sharePage img (s.task j)) (fun va => (leafPte s.mem (lay.root i) va).isSome)
      (fun t done => ShareRun img lay s i j done t ∧ ∀ va ∈ done, UserVa va)
      (fun e t => e = .null ∧ OutOfPages img t ∧ Within (2 * all.length) s t ∧
        2 ^ img.order < s.buddy.inUse + (absent s.mem (lay.root j) (waysTo all)).card) all := by
  have hroot := (h.task i hr.pos hr.lt hr.some).root
  constructor
  case grows => exact ⟨2, fun va => grows_sharePage ..⟩
  case check =>
    rintro t done va ⟨⟨⟨lay', hs⟩, -, -, -⟩, -⟩ hva
    have hk := hs.kept h hroot
    have huser : UserVa va := .of_lt (by simp only [PGSIZE, USER_END] at hva; omega)
    have hrun : Running lay' t i := { hk.tasks.running hr with satp := by rw [hk.root]; exact (hk.tasks.running hr).satp }
    have hroot' := (hk.paging.task i hrun.pos hrun.lt hrun.some).root
    have ok := hk.paging.task i hrun.pos hrun.lt hrun.some
    have hram := (hk.paging.held _ (by rw [ok.page]; exact Role.noConfusion)).1
    rw [ends_bind, ends_get, ends_bind, hrun.current, ok.ptr, ends_loadWord hram (by decide), ok.pgd]
    refine (checkValid_spec hk.paging hroot' huser).mono (fun v u hv => ⟨hv.1, ?_⟩) fun _ _ hno => hno
    rw [hv.2, hk.root, hk.mapped va huser]
  case visit =>
    rintro t done va ⟨⟨⟨lay', hs⟩, hmade, huse, hw⟩, hdone⟩ hva halign hmapped hall
    have hlen := hall.length_le
    rw [List.length_append, List.length_singleton] at hlen
    have hk := hs.kept h hroot
    have huser : UserVa va := .of_lt (by simp only [PGSIZE, USER_END] at hva; omega)
    have hrun : Running lay' t i := { hk.tasks.running hr with satp := by rw [hk.root]; exact (hk.tasks.running hr).satp }
    have hroot' := (hk.paging.task i hrun.pos hrun.lt hrun.some).root
    have hsome := hk.mapped va huser
    rw [hmapped, ← hk.root] at hsome
    obtain ⟨pte, hpte⟩ := Option.isSome_iff_exists.mp hsome
    obtain ⟨-, -, -, -, -, hdata, -, -⟩ := hk.paging.of_leafPte hroot' huser hpte
    have hlt : t.ref (pteFrame pte) + 1 < 2 ^ 64 := by
      obtain ⟨hram, -, href⟩ := hk.paging.held _ (by rw [hdata]; exact Role.noConfusion)
      by_cases hold : lay.role (pteFrame pte) = .other
      · obtain ⟨-, r, p, hp⟩ := hk.added _ hold (by rw [hdata]; exact Role.noConfusion)
        rw [hdata] at hp
        cases hp
      · have := hk.ref _ hram (h.held _ hold).2.2
        have := hN (pteFrame pte) (by rw [← hk.role _ hold, hdata])
        omega
    have hways := way_of_ways huser.allowed
    have hcard := hmade.card_absent hways
    rw [← waysTo_concat] at hcard
    have hspec := sharePage_spec hk.paging (fun hf => hk.sparing.fresh (hfresh hf)) hrun h1 hj (by rw [hk.tasks.task]; exact hne) hij huser halign hpte hlt
    have hcount := sharePage_counted hk.paging (fun hf => hk.sparing.fresh (hfresh hf)) hrun h1 hj (by rw [hk.tasks.task]; exact hne) huser halign hpte hlt
    rw [hk.tasks.task, hk.root] at hspec hcount
    refine ((hspec.within (grows_sharePage ..)).and hcount).mono ?_ ?_
    · rintro _ u ⟨⟨⟨lay'', hshare⟩, hu⟩, hm, hc⟩
      refine ⟨⟨⟨lay'', .snoc hs hshare⟩, ?_, by rw [hc, huse, hcard, Nat.add_assoc], hw.trans hu ?_⟩, ?_⟩
      · rw [waysTo_concat]
        exact hmade.trans (way_of_waysTo fun va' hva' => (hdone va' hva').allowed) hm
      · rw [List.length_append, List.length_singleton]
        omega
      · intro va' hva'
        rcases List.mem_append.mp hva' with hold | hnew
        · exact hdone va' hold
        · rw [List.mem_singleton.mp hnew]
          exact huser
    · rintro e u ⟨⟨⟨he, hfull⟩, hu⟩, -, hshort⟩
      refine ⟨he, hfull, hw.trans hu (by omega), ?_⟩
      rw [huse, Nat.add_assoc, ← hcard] at hshort
      exact hshort.trans_le (Nat.add_le_add_left (Finset.card_le_card
        (Finset.filter_subset_filter _ (waysTo_subset hall.subset))) _)

/-- How `do_cow_fork` of task `i` with the list `l` ends. -/
inductive CowForked (img : Image) (lay : Layout) (s : KState) (i : Nat) (l : List Nat) (n : Int)
    (lay' : Layout) (t : KState) : Prop
  | full : n = -1 → (∀ j, j < NR_TASKS → s.task j ≠ 0) → t.trace = s.trace → Calm img lay lay' s t none →
      CowForked img lay s i l n lay' t
  | child (j c d : Nat) (u v : KState) : n = j → Spawned img s u j c d (mmapOf lay s i) →
      Shares img (lay.root i) d (lay.spawn j c d) u (visits s.vma s.mem (lay.root i) l) lay' v →
      t = v.log (.fence v.mem) → CowForked img lay s i l n lay' t

theorem visits_flatMap (vma : Nat → VmArea) (m : Mem) (root : Nat) (l : List Nat) :
    visits vma m root l =
      l.flatMap fun p => (vma p).pages.filter fun va => (leafPte m root va).isSome := List.filter_flatMap ..

/-- The frames that a fork of the task with the root table `root` and the areas `l` needs. -/
def forkNeeds (s : KState) (root : Nat) (l : List Nat) : Nat :=
  if freeSlot s.task = none then 1 else 2 + (waysTo (visits s.vma s.mem root l)).card

theorem childNeeds_le (s : KState) (root : Nat) (l : List Nat) : childNeeds s.task ≤ forkNeeds s root l := by
  rw [childNeeds, forkNeeds]
  split <;> omega

theorem freeSlot_eq_none {task : Nat → Nat} (h : ∀ j, j < NR_TASKS → task j ≠ 0) : freeSlot task = none := by
  rw [freeSlot, List.find?_eq_none]
  intro j hj
  rw [beq_iff_eq]
  exact h j (List.mem_range.mp hj)

theorem freeSlot_ne_none {task : Nat → Nat} (hj : j < NR_TASKS) (h : task j = 0) : freeSlot task ≠ none := fun hno =>
  freeSlot_none hno hj h

/-- Every way of a new address space is missing. -/
theorem Spawned.absent_ways {u : KState} {c d w : Nat} {vs : List Nat} (h : Paging img lay s) (hs : Spawned img s u j c d w)
    (hvs : ∀ va ∈ vs, UserVa va) : absent u.mem d (waysTo vs) = waysTo vs := by
  refine Finset.filter_true_of_mem fun q hq => ?_
  obtain ⟨va, hva, hq⟩ := mem_waysTo.mp hq
  have hnone : ∀ q', descend pteFormat (tables u.mem) d (vpn va 2 :: q') = none := fun q' => by
    have heven := hs.root_empty h (k := vpn va 2) (hvs va hva)
    rw [descend, if_neg]
    rw [pteFormat_valid]
    omega
  rw [ways_eq, Finset.mem_union, Finset.mem_singleton, Finset.mem_singleton] at hq
  rcases hq with rfl | rfl <;> rw [hnone] <;> rfl

/-- The loops of a fork share the mapped pages of the parent. -/
theorem Spawned.shareAreas {u : KState} {c d : Nat} (h : Paging img lay s) (hfresh : fresh → Fresh img s) (hr : Running lay s i)
    (hl : AreaList img s (mmapOf lay s i) l) (hN : ∀ f, lay.role f = .data → s.ref f + looked s.vma l < 2 ^ 64)
    (hs : Spawned img s u j c d (mmapOf lay s i)) :
    Spec fresh (get >>= fun s' => loadWord img (s'.current + TASK_MM) >>= fun mmap =>
        forAreas (fun area => forValidPages img (sharePage img (framePtr c)) (2 ^ 52) (PGROUNDDOWN area.vm_start) area.vm_end)
          (2 ^ 64) mmap >>= fun _ => sfenceVma >>= fun _ => pure (j : Int)) u
      (fun n t => n = j ∧ (∃ lay' v, Shares img (lay.root i) d (lay.spawn j c d) u (visits s.vma s.mem (lay.root i) l) lay' v ∧
          t = v.log (.fence v.mem)) ∧ Within (2 * looked s.vma l) u t ∧
        t.buddy.inUse = u.buddy.inUse + (waysTo (visits s.vma s.mem (lay.root i) l)).card)
      fun e t => e = .null ∧ OutOfPages img t ∧ Within (2 * looked s.vma l) u t ∧
        2 ^ img.order < u.buddy.inUse + (waysTo (visits s.vma s.mem (lay.root i) l)).card := by
  have hroot := (h.task i hr.pos hr.lt hr.some).root
  have hij : i ≠ j := by
    rintro rfl
    exact hr.some hs.empty
  have hp := hs.paging h
  have hrun := hs.running hr
  have eri : (lay.spawn j c d).root i = lay.root i := Function.update_of_ne hij ..
  have erj : (lay.spawn j c d).root j = d := Function.update_self ..
  have epi : (lay.spawn j c d).page i = lay.page i := Function.update_of_ne hij ..
  have ok := hp.task i hrun.pos hrun.lt hrun.some
  have hpram := (hp.held _ (by rw [ok.page]; exact Role.noConfusion)).1
  have htask : u.task j = framePtr c := by rw [hs.task, Function.update_self]
  have hold := hs.role h (f := lay.page i) (by rw [(h.task i hr.pos hr.lt hr.some).page]; exact Role.noConfusion)
  have hmm : ld 8 u.mem ((lay.spawn j c d).page i * 4096 + TASK_MM) = mmapOf lay s i := by
    rw [epi]
    exact (hs.frame _ hold.1 hold.2.1).ld (by decide)
  have hmapped : ∀ va, UserVa va → (leafPte u.mem (lay.root i) va).isSome = (leafPte s.mem (lay.root i) va).isSome :=
    fun va hva => by rw [hs.leaves h hroot hva]
  have hN' : ∀ f, (lay.spawn j c d).role f = .data → u.ref f + looked s.vma l < 2 ^ 64 := by
    intro f hf
    have hfd : f ≠ d := by
      rintro rfl
      rw [Layout.role_spawn_root] at hf
      cases hf
    have hfc : f ≠ c := by
      rintro rfl
      rw [Layout.role_spawn_page hs.ne] at hf
      cases hf
    rw [Layout.role_spawn_of_ne hfc hfd] at hf
    have hheld := h.held f (by rw [hf]; exact Role.noConfusion)
    rw [hs.ref f hheld.1 hheld.2.2]
    exact hN f hf
  obtain ⟨vs, hvs⟩ : ∃ vs, vs = visits s.vma s.mem (lay.root i) l := ⟨_, rfl⟩
  have hlook : vs.length ≤ looked s.vma l := by
    rw [hvs]
    exact List.length_filter_le _ _
  have hcount : ∀ f, (lay.spawn j c d).role f = .data → u.ref f + vs.length < 2 ^ 64 := fun f hf =>
    (Nat.add_le_add_left hlook _).trans_lt (hN' f hf)
  have hloop := shareLoop hp (fun hf => hs.sparing.fresh (hfresh hf)) hrun hs.pos hs.lt
    (by rw [htask]; exact framePtr_ne_zero c) hij hcount
  rw [htask, eri, erj] at hloop
  have hvma : ∀ t done, (ShareRun img (lay.spawn j c d) u i j done t ∧ ∀ va ∈ done, UserVa va) → t.vma = s.vma := by
    rintro t done ⟨⟨⟨lay', hsh⟩, -, -, -⟩, -⟩
    have hk := hsh.kept hp ok.root
    rw [hk.tasks.vma, hs.vma]
  have hneeds : ∀ va ∈ vs, UserVa va := fun va hva => by
    rw [hvs, visits, List.mem_filter, List.mem_flatMap] at hva
    obtain ⟨⟨p, hp, hpage⟩, -⟩ := hva
    exact .of_le_end ((VmArea.mem_pages.mp hpage).2.2.le.trans (hl.below p hp))
  have habsent : absent u.mem d (waysTo vs) = waysTo vs := hs.absent_ways h hneeds
  refine ends_bind.mpr (ends_get.mpr ?_)
  rw [hrun.current, ok.ptr]
  refine ends_bind.mpr ((ends_loadWord hpram (by decide)).mpr ?_)
  rw [hmm]
  have hareas : AreaRule fresh
      (fun area => forValidPages img (sharePage img (framePtr c)) (2 ^ 52) (PGROUNDDOWN area.vm_start) area.vm_end)
      (fun p => (s.vma p).vm_next)
      (fun p => (s.vma p).pages.filter fun va => (leafPte s.mem (lay.root i) va).isSome)
      (fun t done => ShareRun img (lay.spawn j c d) u i j done t ∧ ∀ va ∈ done, UserVa va)
      (fun e t => e = .null ∧ OutOfPages img t ∧ Within (2 * vs.length) u t ∧
        2 ^ img.order < u.buddy.inUse + (absent u.mem d (waysTo vs)).card) vs l := by
    refine ⟨⟨_, fun a => grows_forValidPages (fun _ => grows_sharePage ..) ..⟩, fun t done p hR _ => ?_, ?_⟩
    · rw [hvma t done hR]
    · intro t done p hR hp hall
      have hend := hl.below p hp
      have hround : rounds (PGROUNDDOWN (s.vma p).vm_start) (s.vma p).vm_end ≤ 2 ^ 26 := by
        simp only [rounds, PGSIZE, USER_END] at *
        omega
      have hsame : (s.vma p).pages.filter (fun va => (leafPte s.mem (lay.root i) va).isSome) =
          (s.vma p).pages.filter fun va => (leafPte u.mem (lay.root i) va).isSome := by
        refine List.filter_congr fun va hva => ?_
        have hlt := (VmArea.mem_pages.mp hva).2.2
        rw [hmapped va (.of_lt (by rw [USER_END] at hend; omega))]
      rw [hvma t done hR, hsame]
      rw [hsame] at hall
      exact hloop.spec hR (by simp only [PGROUNDDOWN, PGSIZE]; omega) hend (by omega) hall
  have hflat : l.flatMap (fun p => (s.vma p).pages.filter fun va => (leafPte s.mem (lay.root i) va).isSome) = vs := by
    rw [← visits_flatMap, hvs]
  have hstart : ShareRun img (lay.spawn j c d) u i j [] u ∧ ∀ va ∈ ([] : List Nat), UserVa va :=
    ⟨.nil, fun _ hva => absurd hva List.not_mem_nil⟩
  rw [← hvs]
  refine Spec.bind (k := 0) ((hareas.spec (fun _ hp => hp) hstart hl.chain ?_ ?_).mono
    (fun _ _ hR => hR) fun _ _ he => ⟨he.1, he.2.1, he.2.2.1.mono (Nat.mul_le_mul_left 2 hlook), ?_⟩) (fun _ => ?_) ?_
  · have := hl.length_le
    omega
  · rw [List.nil_append, hflat]
  · rw [← habsent]
    exact he.2.2.2
  · exact grows_bind grows_sfenceVma fun _ => grows_pure _
  · rintro _ v ⟨⟨⟨lay', hsh⟩, -, huse, hv⟩, -⟩
    rw [List.nil_append, hflat] at hsh hv huse
    rw [eri, erj] at hsh
    rw [erj, habsent] at huse
    have hlog : Within 0 v (v.log (.fence v.mem)) := ⟨List.suffix_cons _ _, rfl, Nat.le_refl _⟩
    refine ends_bind.mpr (ends_modify.mpr (Spec.pure ⟨rfl, ⟨lay', v, hsh, rfl⟩, ?_, ?_⟩))
    · exact (hv.mono (Nat.mul_le_mul_left 2 hlook)).trans hlog le_rfl
    · rw [KState.log_buddy, huse]

theorem doCowFork_counted (h : Paging img lay s) (hfresh : fresh → Fresh img s) (hr : Running lay s i) (hidle : s.task 0 ≠ 0)
    (hl : AreaList img s (mmapOf lay s i) l) (hregs : regs < 2 ^ 64) (hframe : InFrame regs)
    (hN : ∀ f, lay.role f = .data → s.ref f + looked s.vma l < 2 ^ 64) :
    Spec fresh (doCowFork img regs) s
      (fun n t => (∃ lay', CowForked img lay s i l n lay' t) ∧ Within (2 + 2 * looked s.vma l) s t ∧
        t.buddy.inUse = s.buddy.inUse + forkNeeds s (lay.root i) l)
      fun e t => e = .null ∧ OutOfPages img t ∧ Within (2 + 2 * looked s.vma l) s t ∧
        2 ^ img.order < s.buddy.inUse + forkNeeds s (lay.root i) l := by
  have hroot := (h.task i hr.pos hr.lt hr.some).root
  rw [doCowFork]
  have hle := childNeeds_le s (lay.root i) l
  refine ends_bind.mpr (((cowChild_counted h hr hidle hregs hframe).and ((grows_cowChild regs).run s)).mono ?_
    fun _ _ he _ => ⟨he.1.1, he.1.2.1, he.2.mono (Nat.le_add_right 2 _), he.1.2.2.trans_le (Nat.add_le_add_left hle _)⟩)
  rintro o u ⟨⟨hu, ⟨rfl, hfull, c, -, htrace, hcalm⟩ | ⟨j, c, d, rfl, hs⟩⟩, hw⟩
  · have hnone := freeSlot_eq_none hfull
    rw [childNeeds, if_pos hnone] at hu
    refine Spec.pure ⟨⟨_, .full rfl hfull htrace hcalm⟩, hw.mono (Nat.le_add_right 2 _), ?_⟩
    rw [forkNeeds, if_pos hnone]
    exact hu
  have hsome := freeSlot_ne_none hs.lt hs.empty
  rw [childNeeds, if_neg hsome] at hu
  have hforks : forkNeeds s (lay.root i) l = 2 + (waysTo (visits s.vma s.mem (lay.root i) l)).card := by
    rw [forkNeeds, if_neg hsome]
  have hloop : Spec fresh _ u _ _ := hs.shareAreas h hfresh hr hl hN
  dsimp only
  refine hloop.mono ?_ ?_
  · rintro n t ⟨rfl, ⟨lay', v, hsh, ht⟩, hv, huse⟩
    refine ⟨⟨lay', .child j c d u v rfl hs hsh ht⟩, hw.trans hv le_rfl, ?_⟩
    rw [huse, hforks, hu, Nat.add_assoc]
  · rintro e t ⟨he, hfull, hv, hshort⟩
    refine ⟨he, hfull, hw.trans hv le_rfl, ?_⟩
    rwa [hforks, ← Nat.add_assoc, ← hu]

/-- The child of a fork, from its page to the shared pages. -/
theorem doCowFork_forged (h : Paging img lay s) (hfresh : fresh → Fresh img s) (hr : Running lay s i) (hidle : s.task 0 ≠ 0)
    (hl : AreaList img s (mmapOf lay s i) l) (hregs : regs < 2 ^ 64) (hframe : InFrame regs)
    (hN : ∀ f, lay.role f = .data → s.ref f + looked s.vma l < 2 ^ 64) :
    Spec fresh (doCowFork img regs) s
      (fun n t => n = -1 ∨ ∃ j c d u lay' v, n = Int.ofNat j ∧ Spawned img s u j c d (mmapOf lay s i) ∧
        Forged img s.mem u.mem (lay.page i) c (regs % 4096) j ∧ u.tasksNumber = j ∧
        Shares img (lay.root i) d (lay.spawn j c d) u (visits s.vma s.mem (lay.root i) l) lay' v ∧ t = v.log (.fence v.mem))
      fun _ _ => True := by
  rw [doCowFork]
  refine ends_bind.mpr ((cowChild_forged h hr hidle hregs hframe).mono ?_ fun _ _ _ _ => trivial)
  rintro o u ⟨-, ⟨rfl, -⟩ | ⟨j, c, d, rfl, hs, hforged, hnumber⟩⟩
  · exact Spec.pure (.inl rfl)
  · have hloop : Spec fresh _ u _ _ := hs.shareAreas h hfresh hr hl hN
    dsimp only
    refine hloop.mono ?_ fun _ _ _ => trivial
    rintro n t ⟨rfl, ⟨lay', v, hsh, ht⟩, -⟩
    exact .inr ⟨j, c, d, u, lay', v, rfl, hs, hforged, hnumber, hsh, ht⟩

theorem doCowFork_spec (h : Paging img lay s) (hfresh : fresh → Fresh img s) (hr : Running lay s i) (hidle : s.task 0 ≠ 0)
    (hl : AreaList img s (mmapOf lay s i) l) (hregs : regs < 2 ^ 64) (hframe : InFrame regs)
    (hN : ∀ f, lay.role f = .data → s.ref f + looked s.vma l < 2 ^ 64) :
    Spec fresh (doCowFork img regs) s
      (fun n t => (∃ lay', CowForked img lay s i l n lay' t) ∧ Within (2 + 2 * looked s.vma l) s t)
      fun e t => e = .null ∧ OutOfPages img t ∧ Within (2 + 2 * looked s.vma l) s t :=
  (doCowFork_counted h hfresh hr hidle hl hregs hframe hN).mono (fun _ _ ht => ⟨ht.1, ht.2.1⟩)
    fun _ _ he => ⟨he.1, he.2.1, he.2.2.1⟩

end CowFork

end ZjuOs
