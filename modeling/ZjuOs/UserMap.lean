import ZjuOs.CowFork
import ZjuOs.Sharing

/-! The user mappings of all tasks as one map, from a task and a page of its user half to the leaf entry. -/
namespace ZjuOs
open Memory Sharing

/-- Number of pages of the user half. -/
abbrev USER_PAGES : Nat := 384 * 2 ^ 18

def userSlots : Finset (Nat × Nat) := Finset.range NR_TASKS ×ˢ Finset.range USER_PAGES

/-- The root table of task `i`. -/
def KState.root (s : KState) (i : Nat) : Nat := VA2PA (ld 8 s.mem (VA2PA (s.task i) + TASK_PGD)) / PGSIZE

/-- The list of areas of task `i`. -/
def KState.mmap (s : KState) (i : Nat) : Nat := ld 8 s.mem (VA2PA (s.task i) + TASK_MM)

/-- Slot `i` of `task[]` holds a task that can run in user mode. -/
def KState.Live (s : KState) (i : Nat) : Prop := 1 ≤ i ∧ i < NR_TASKS ∧ s.task i ≠ 0

instance (s : KState) (i : Nat) : Decidable (s.Live i) := inferInstanceAs (Decidable (_ ∧ _))

/-- The valid user leaf entry of a slot: a task and a page number. -/
def KState.userPte (s : KState) (x : Nat × Nat) : Option Nat :=
  if s.Live x.1 ∧ x.2 < USER_PAGES then leafPte s.mem (s.root x.1) (x.2 * PGSIZE) else none

def pteView : View Nat Nat := { target := pteFrame, writable := fun pte => pte.testBit PTE_W }

section Slots
variable {img : Image} {lay lay' : Layout} {s t : KState} {i n : Nat} {x : Nat × Nat}

theorem mem_userSlots : x ∈ userSlots ↔ x.1 < NR_TASKS ∧ x.2 < USER_PAGES := by
  rw [userSlots, Finset.mem_product, Finset.mem_range, Finset.mem_range]

theorem Paging.task_ok (h : Paging img lay s) (hi : s.Live i) : TaskOk lay s i := h.task i hi.1 hi.2.1 hi.2.2

theorem Paging.page_ram (h : Paging img lay s) (hi : s.Live i) : img.Ram (lay.page i) :=
  (h.held _ (by rw [(h.task_ok hi).page]; exact Role.noConfusion)).1

theorem Paging.page_eq {f : Nat} (h : Paging img lay s) (hi : s.Live i) (hf : s.task i = framePtr f) : lay.page i = f :=
  framePtr_inj ((h.task_ok hi).ptr.symm.trans hf)

/-- Different tasks have different pages. -/
theorem Paging.task_inj {j : Nat} (h : Paging img lay s) (hi : s.Live i) (hj : s.Live j) (hsame : s.task i = s.task j) :
    i = j := by
  by_contra hne
  exact (h.apart i j hi.1 hi.2.1 hi.2.2 hj.1 hj.2.1 hj.2.2 hne).1 (h.page_eq hi (hsame.trans (h.task_ok hj).ptr))

theorem Paging.task_pa (h : Paging img lay s) (hi : s.Live i) : VA2PA (s.task i) = lay.page i * 4096 := by
  rw [(h.task_ok hi).ptr]
  exact VA2PA_page (h.page_ram hi)

theorem Paging.root_eq (h : Paging img lay s) (hi : s.Live i) : s.root i = lay.root i := by
  have ok := h.task_ok hi
  rw [KState.root, h.task_pa hi, ok.pgd, VA2PA_page (h.table_ram ok.root), PGSIZE]
  omega

theorem Paging.mmap_eq (h : Paging img lay s) (hi : s.Live i) : mmapOf lay s i = s.mmap i := by
  rw [mmapOf, KState.mmap, h.task_pa hi]

theorem SameTasks.live (h : SameTasks s t) : t.Live i ↔ s.Live i := by
  rw [KState.Live, KState.Live, h.task]

theorem Running.live (hr : Running lay s i) : s.Live i := ⟨hr.pos, hr.lt, hr.some⟩

theorem userVa_page (hn : n < USER_PAGES) : UserVa (n * PGSIZE) := by
  rw [UserVa, VPN_eq]
  simp only [USER_PAGES, PGSIZE] at *
  omega

/-- The number of the page of a user address. -/
theorem page_lt {va : Nat} (hva : UserVa va) : va / PGSIZE % 2 ^ 27 < USER_PAGES := by
  rw [UserVa, VPN_eq] at hva
  simp only [USER_PAGES, PGSIZE] at *
  omega

theorem page_of_page (hn : n < USER_PAGES) : n * PGSIZE / 4096 % 2 ^ 27 = n := by
  simp only [USER_PAGES, PGSIZE] at *
  omega

theorem userPte_none (h : ¬ (s.Live i ∧ n < USER_PAGES)) : s.userPte (i, n) = none := if_neg h

theorem Paging.userPte_eq (h : Paging img lay s) (hi : s.Live i) (hn : n < USER_PAGES) :
    s.userPte (i, n) = leafPte s.mem (lay.root i) (n * PGSIZE) := by
  rw [KState.userPte, if_pos ⟨hi, hn⟩, h.root_eq hi]

/-- The entry of the page of an address. -/
theorem Paging.userPte_va (h : Paging img lay s) (hi : s.Live i) {va : Nat} (hva : UserVa va) :
    s.userPte (i, va / PGSIZE % 2 ^ 27) = leafPte s.mem (lay.root i) va := by
  rw [h.userPte_eq hi (page_lt hva)]
  exact leafPte_page (page_of_page (page_lt hva))

theorem userPte_some {pte : Nat} (hx : s.userPte x = some pte) : s.Live x.1 ∧ x.2 < USER_PAGES := by
  by_contra hno
  rw [KState.userPte, if_neg hno] at hx
  cases hx

theorem Paging.userPte_role (h : Paging img lay s) {pte : Nat} (hx : s.userPte x = some pte) :
    lay.role (pteFrame pte) = .data := by
  obtain ⟨hi, hn⟩ := userPte_some hx
  rw [← Prod.mk.eta (p := x), h.userPte_eq hi hn] at hx
  obtain ⟨-, -, -, -, -, hdata, -⟩ := h.of_leafPte (h.task_ok hi).root (userVa_page hn) hx
  exact hdata

theorem Paging.userPte_held (h : Paging img lay s) {pte : Nat} (hx : s.userPte x = some pte) :
    img.Ram (pteFrame pte) ∧ s.ref (pteFrame pte) ≠ 0 := by
  have hheld := h.held _ (by rw [h.userPte_role hx]; exact Role.noConfusion)
  exact ⟨hheld.1, hheld.2.2⟩

/-- Two states with the same tasks and the same leaves have the same map. -/
theorem Paging.userPte_congr (h : Paging img lay s) (h' : Paging img lay' t) (htask : t.task = s.task)
    (hroot : lay'.root = lay.root)
    (hleaf : ∀ r va, lay.role r = .table r [] → UserVa va → leafPte t.mem r va = leafPte s.mem r va) :
    t.userPte = s.userPte := by
  funext ⟨i, n⟩
  have hlive : t.Live i ↔ s.Live i := by rw [KState.Live, KState.Live, htask]
  by_cases hx : s.Live i ∧ n < USER_PAGES
  · rw [h'.userPte_eq (hlive.mpr hx.1) hx.2, h.userPte_eq hx.1 hx.2, hroot,
      hleaf _ _ (h.task_ok hx.1).root (userVa_page hx.2)]
  · rw [userPte_none hx, userPte_none (by rwa [hlive])]

theorem Calm.userPte {drop : Option Nat} (h : Paging img lay s) (hc : Calm img lay lay' s t drop) :
    t.userPte = s.userPte := h.userPte_congr hc.paging hc.tasks.task hc.root hc.leaves

/-- The page of `va` has been mapped in task `i`. -/
theorem Remapped.userPte {va pte : Nat} {drop : Option Nat} (h : Paging img lay s) (hi : s.Live i)
    (hva : UserVa va) (hm : Remapped img lay lay' s t (lay.root i) va pte drop) :
    t.userPte = Function.update s.userPte (i, va / PGSIZE % 2 ^ 27) (some pte) := by
  have hi' := hm.tasks.live.mpr hi
  funext ⟨k, n⟩
  by_cases hx : (k, n) = (i, va / PGSIZE % 2 ^ 27)
  · rw [hx, Function.update_self, hm.paging.userPte_va hi' hva, hm.root]
    exact hm.leaf va rfl
  · rw [Function.update_of_ne hx]
    by_cases hk : s.Live k ∧ n < USER_PAGES
    · rw [hm.paging.userPte_eq (hm.tasks.live.mpr hk.1) hk.2, h.userPte_eq hk.1 hk.2, hm.root]
      refine hm.others _ _ (h.task_ok hk.1).root (userVa_page hk.2) ?_
      rw [page_of_page hk.2]
      by_cases hki : k = i
      · exact .inr fun hn => hx (by rw [hki, hn])
      · exact .inl (h.apart k i hk.1.1 hk.1.2.1 hk.1.2.2 hi.1 hi.2.1 hi.2.2 hki).2
    · rw [userPte_none hk, userPte_none (by rwa [hm.tasks.live])]

/-- The page of `va` has been shared between the tasks `i` and `j`. -/
theorem Shared.userPte {j va pte : Nat} (h : Paging img lay s) (hi : s.Live i) (hj : s.Live j)
    (hva : UserVa va) (hm : Shared img lay lay' s t (lay.root i) (lay.root j) va pte) :
    t.userPte = Function.update (Function.update s.userPte (i, va / PGSIZE % 2 ^ 27) (some (clearW pte)))
      (j, va / PGSIZE % 2 ^ 27) (some (clearW pte)) := by
  have hi' := hm.tasks.live.mpr hi
  have hj' := hm.tasks.live.mpr hj
  funext ⟨k, n⟩
  by_cases hxj : (k, n) = (j, va / PGSIZE % 2 ^ 27)
  · rw [hxj, Function.update_self, hm.paging.userPte_va hj' hva, hm.root]
    exact hm.child va rfl
  · rw [Function.update_of_ne hxj]
    by_cases hxi : (k, n) = (i, va / PGSIZE % 2 ^ 27)
    · rw [hxi, Function.update_self, hm.paging.userPte_va hi' hva, hm.root]
      exact hm.parent va rfl
    · rw [Function.update_of_ne hxi]
      by_cases hk : s.Live k ∧ n < USER_PAGES
      · rw [hm.paging.userPte_eq (hm.tasks.live.mpr hk.1) hk.2, h.userPte_eq hk.1 hk.2, hm.root]
        refine hm.others _ _ (h.task_ok hk.1).root (userVa_page hk.2) ?_
        rw [page_of_page hk.2]
        rintro ⟨hroot, hpage⟩
        have hsame : k = i ∨ k = j := by
          by_contra hno
          rw [not_or] at hno
          rcases hroot with hr | hr
          · exact (h.apart k i hk.1.1 hk.1.2.1 hk.1.2.2 hi.1 hi.2.1 hi.2.2 hno.1).2 hr
          · exact (h.apart k j hk.1.1 hk.1.2.1 hk.1.2.2 hj.1 hj.2.1 hj.2.2 hno.2).2 hr
        rcases hsame with rfl | rfl
        · exact hxi (by rw [hpage])
        · exact hxj (by rw [hpage])
      · rw [userPte_none hk, userPte_none (by rwa [hm.tasks.live])]

theorem Spawned.live {j c d w : Nat} (hs : Spawned img s t j c d w) : t.Live i ↔ s.Live i ∨ i = j := by
  rw [KState.Live, KState.Live, hs.task]
  by_cases hij : i = j
  · rw [hij, Function.update_self]
    exact iff_of_true ⟨hs.pos, hs.lt, framePtr_ne_zero c⟩ (.inr rfl)
  · rw [Function.update_of_ne hij]
    exact ⟨.inl, fun h => h.resolve_right hij⟩

/-- A new task maps no user page. -/
theorem Spawned.userPte {j c d w : Nat} (h : Paging img lay s) (hs : Spawned img s t j c d w) :
    t.userPte = s.userPte := by
  have hp := hs.paging h
  funext ⟨k, n⟩
  by_cases hk : t.Live k ∧ n < USER_PAGES
  · rw [hp.userPte_eq hk.1 hk.2]
    by_cases hkj : k = j
    · have hroot : (lay.spawn j c d).root k = d := by rw [hkj]; exact Function.update_self ..
      have hdead : ¬ (s.Live k ∧ n < USER_PAGES) := fun hl => hl.1.2.2 (by rw [hkj]; exact hs.empty)
      rw [hroot, hs.leaves_new h (userVa_page hk.2), userPte_none hdead]
    · have hlive := (hs.live.mp hk.1).resolve_right hkj
      have hroot : (lay.spawn j c d).root k = lay.root k := Function.update_of_ne hkj ..
      rw [hroot, hs.leaves h (h.task_ok hlive).root (userVa_page hk.2), h.userPte_eq hlive hk.2]
  · have hdead : ¬ (s.Live k ∧ n < USER_PAGES) := fun hl => hk ⟨hs.live.mpr (.inl hl.1), hl.2⟩
    rw [userPte_none hk, userPte_none hdead]

end Slots

end ZjuOs
