import ZjuOs.Faults

/-! One round of the page loop of `do_cow_fork`: the parent's page becomes read-only and the child's too. -/
namespace ZjuOs
open Memory Exec Radix

/-- The page of `va`, mapped by `pte` in the address space `r`, is mapped without W in `r` and in `d`. -/
structure Shared (img : Image) (lay lay' : Layout) (s t : KState) (r d va pte : Nat) : Prop where
  old : leafPte s.mem r va = some pte
  paging : Paging img lay' t
  role : ∀ f, lay.role f ≠ .other → lay'.role f = lay.role f
  added : ∀ f, lay.role f = .other → lay'.role f ≠ .other → s.ref f = 0 ∧ ∃ r p, lay'.role f = .table r p
  page : lay'.page = lay.page
  root : lay'.root = lay.root
  ref : ∀ f, img.Ram f → s.ref f ≠ 0 → t.ref f = s.ref f + if f = pteFrame pte then 1 else 0
  frame : ∀ f, (∀ r p, lay'.role f ≠ .table r p) → SameFrame t.mem s.mem f
  inner : InnerKept lay s.mem t.mem
  parent : ∀ va', va' / 4096 % 2 ^ 27 = va / 4096 % 2 ^ 27 → leafPte t.mem r va' = some (clearW pte)
  child : ∀ va', va' / 4096 % 2 ^ 27 = va / 4096 % 2 ^ 27 → leafPte t.mem d va' = some (clearW pte)
  others : ∀ r' va', lay.role r' = .table r' [] → UserVa va' →
    ¬ ((r' = r ∨ r' = d) ∧ va' / 4096 % 2 ^ 27 = va / 4096 % 2 ^ 27) → leafPte t.mem r' va' = leafPte s.mem r' va'
  tasks : SameTasks s t
  sparing : Sparing img s t

section Entries
variable {pte : Nat}

theorem clearW_lt : clearW pte < 2 ^ 64 := Nat.lt_of_le_of_lt Nat.and_le_right (by decide)

theorem testBit_clearW {j : Nat} (hj : j ≠ 2) (hlt : j < 10) : (clearW pte).testBit j = pte.testBit j := by
  rw [clearW, Nat.testBit_and]
  have hmask : (0xfffffffffffffffb : Nat).testBit j = true := by
    obtain rfl | rfl | rfl | rfl | rfl | rfl | rfl | rfl | rfl : j = 0 ∨ j = 1 ∨ j = 3 ∨ j = 4 ∨ j = 5 ∨ j = 6 ∨
        j = 7 ∨ j = 8 ∨ j = 9 := by omega
    all_goals decide
  rw [hmask, Bool.and_true]

theorem clearW_readonly : (clearW pte).testBit PTE_W = false := by
  have hmask : (0xfffffffffffffffb : Nat).testBit PTE_W = false := by decide
  rw [clearW, Nat.testBit_and, hmask, Bool.and_false]

theorem clearW_odd (h : pte % 2 = 1) : clearW pte % 2 = 1 := by
  rw [← testBit_zero_iff, testBit_clearW (by decide) (by decide)]
  exact testBit_zero_iff.mpr h

theorem pteFlags_clearW_lt (hlt : pte < 2 ^ 64) (h : pteFlags pte < 32) : pteFlags (clearW pte) < 32 := by
  rw [pteFlags_clearW hlt]
  exact Nat.lt_of_le_of_lt Nat.and_le_left h

/-- The entry of the child: the parent's frame with the parent's flags. -/
theorem mk_and_1f (h : pteFlags pte < 32) : 2 ^ 10 * pteFrame pte + (pte &&& 0x1f) = pte := by
  rw [and_1f_eq, show (0x1f : Nat) = 2 ^ 5 - 1 by decide, Nat.and_two_pow_sub_one_eq_mod, Nat.mod_eq_of_lt h]
  exact (pte_split pte).symm

end Entries

section SharePage
variable {img : Image} {lay : Layout} {s : KState} {i j va pte : Nat}

/-- The frame address that `do_cow_fork` computes; its shift is right at page-aligned addresses. -/
theorem shared_pa {f : Nat} (hf : img.Ram f) (hpte : pteFrame pte = f) (hva : va % 4096 = 0) :
    ((pte >>> 10) <<< (12 + (va &&& 0xfff))) % 2 ^ 64 = f * 4096 := by
  have hlow : va &&& 0xfff = 0 := by
    rw [show (0xfff : Nat) = 2 ^ 12 - 1 by decide, Nat.and_two_pow_sub_one_eq_mod]
    exact hva
  have hb := hf.bounds
  have hshift : pte >>> 10 = f := by
    rw [Nat.shiftRight_eq_div_pow, ← hpte]
    rfl
  rw [hlow, hshift, Nat.shiftLeft_eq]
  omega

/-- What holds when the parent's entry of a page has lost W, and its frame has got a second reference. -/
structure Withdrawn (img : Image) (lay : Layout) (s v : KState) (r va pte l : Nat) : Prop where
  slot : Slot lay s r va l pte
  edited : Mapped img lay lay s (s.edit l (vpn va 0) (clearW pte)) r va (clearW pte)
  recounted : Recounted img (s.edit l (vpn va 0) (clearW pte)) v (pteFrame pte) (s.ref (pteFrame pte) + 1)

theorem Withdrawn.paging {r l : Nat} {v : KState} (h : Withdrawn img lay s v r va pte l) : Paging img lay v :=
  h.edited.paging.recount h.recounted (Nat.succ_ne_zero _)

theorem Withdrawn.sparing {r l : Nat} {v : KState} (h : Withdrawn img lay s v r va pte l) : Sparing img s v :=
  h.edited.sparing.trans (h.recounted.sparing (Nat.succ_ne_zero _))

/-- The parent's page is withdrawn, and is to be mapped for the child. -/
theorem sharePage_rule {fresh : Prop} {P : Unit → KState → Prop} {E : Halt → KState → Prop} (h : Paging img lay s)
    (hr : Running lay s i) (h1 : 1 ≤ j) (hj : j < NR_TASKS) (hne : s.task j ≠ 0) (hva : UserVa va) (halign : va % 4096 = 0)
    (hpte : leafPte s.mem (lay.root i) va = some pte) (hlt : s.ref (pteFrame pte) + 1 < 2 ^ 64)
    (hgo : ∀ l v, Withdrawn img lay s v (lay.root i) va pte l →
      Spec fresh (createMapping img (framePtr (lay.root j)) va (pteFrame pte * 4096) PGSIZE (clearW pte &&& 0x1f)) v P E) :
    Spec fresh (sharePage img (s.task j) va) s P E := by
  have ok := h.task j h1 hj hne
  have hroot := (h.task i hr.pos hr.lt hr.some).root
  obtain ⟨l, hs⟩ := h.slot hroot hva hpte
  have hlram := h.table_ram hs.role
  obtain ⟨hfram, hfabove, hfref⟩ := h.held _ (by rw [hs.data]; exact Role.noConfusion)
  have hframe : pteFrame (clearW pte) = pteFrame pte := pteFrame_clearW hs.lt
  have hflags := pteFlags_clearW_lt hs.lt hs.flags
  rw [sharePage]
  refine .currentPgd h hr (ends_bind.mpr ?_)
  refine (leafTable_spec (j := 2) h hroot rfl hva.allowed hs.descend).mono ?_ fun _ _ hno => hno.elim
  rintro p u ⟨hu, rfl⟩
  rw [hu]
  have hentry : entry s.mem l (VPN va 0) = pte := hs.entry
  refine ends_bind.mpr ((ends_loadEntry hlram (VPN_lt va 0)).mpr (ends_bind.mpr ?_))
  rw [hentry]
  refine (ends_storeEntry hlram (VPN_lt va 0)).mpr ?_
  -- the parent's entry has lost W
  have hw : Mapped img lay lay s (s.edit l (vpn va 0) (clearW pte)) (lay.root i) va (clearW pte) :=
    .of_grown (.refl h) hroot hva hs.descend clearW_lt (clearW_odd hs.odd)
      ⟨by rw [hframe, hs.data], hflags, by rw [testBit_clearW (by decide) (by decide), hs.user]⟩
  have hslot : entry (s.edit l (VPN va 0) (clearW pte)).mem l (VPN va 0) = clearW pte := by
    rw [KState.edit_mem, entry_setEntry_self, Nat.mod_eq_of_lt clearW_lt]
  have hmask : pte &&& 0xfffffffffffffffb = clearW pte := rfl
  rw [hmask]
  refine ends_bind.mpr ((ends_loadEntry hlram (VPN_lt va 0)).mpr ?_)
  rw [hslot, shared_pa hfram hframe halign]
  have hptr := PA2VA_frame hfram (o := 0) (by omega)
  rw [Nat.add_zero, Nat.add_zero] at hptr
  dsimp only
  rw [hptr]
  refine ends_bind.mpr ((getPage_spec hw.paging.pages hfram hfabove hfref hlt).mono ?_ fun _ _ hno => hno.elim)
  rintro _ v hv
  have hd : Withdrawn img lay s v (lay.root i) va pte l := ⟨hs, hw, hv⟩
  refine ends_bind.mpr ((ends_loadEntry hlram (VPN_lt va 0)).mpr ?_)
  have hagain : entry v.mem l (VPN va 0) = clearW pte := by
    rw [hv.mem]
    exact hslot
  rw [hagain]
  have htasks : SameTasks s v := hw.tasks.trans hv.tasks
  have okv := hd.paging.task j h1 hj (by rw [htasks.task]; exact hne)
  have hpram := (hd.paging.held _ (by rw [okv.page]; exact Role.noConfusion)).1
  rw [ok.ptr]
  refine ends_bind.mpr ((ends_loadWord hpram (by decide)).mpr ?_)
  rw [okv.pgd]
  exact hgo l v hd

theorem sharePage_spec {fresh : Prop} (h : Paging img lay s) (hfresh : fresh → Fresh img s) (hr : Running lay s i) (h1 : 1 ≤ j) (hj : j < NR_TASKS)
    (hne : s.task j ≠ 0) (hij : i ≠ j) (hva : UserVa va) (halign : va % 4096 = 0)
    (hpte : leafPte s.mem (lay.root i) va = some pte) (hlt : s.ref (pteFrame pte) + 1 < 2 ^ 64) :
    Spec fresh (sharePage img (s.task j) va) s
      (fun _ t => ∃ lay', Shared img lay lay' s t (lay.root i) (lay.root j) va pte)
      fun e t => e = .null ∧ OutOfPages img t := by
  refine sharePage_rule h hr h1 hj hne hva halign hpte hlt fun l v hd => ?_
  have hroot := (h.task i hr.pos hr.lt hr.some).root
  have hapart := h.apart i j hr.pos hr.lt hr.some h1 hj hne hij
  have hs := hd.slot
  have hw := hd.edited
  have hv := hd.recounted
  have hfram := (h.held _ (by rw [hs.data]; exact Role.noConfusion)).1
  have hframe : pteFrame (clearW pte) = pteFrame pte := pteFrame_clearW hs.lt
  have hflags := pteFlags_clearW_lt hs.lt hs.flags
  have htasks : SameTasks s v := hw.tasks.trans hv.tasks
  have hrootj := (hd.paging.task j h1 hj (by rw [htasks.task]; exact hne)).root
  have hperm : (clearW pte &&& 0x1f) = pteFlags (clearW pte) := by
    rw [and_1f_eq, show (0x1f : Nat) = 2 ^ 5 - 1 by decide, Nat.and_two_pow_sub_one_eq_mod, Nat.mod_eq_of_lt hflags]
  have hodd : (clearW pte &&& 0x1f) % 2 = 1 := by
    rw [hperm, ← testBit_zero_iff, ← testBit_pteFlags (by decide), testBit_zero_iff]
    exact clearW_odd hs.odd
  have huser : (clearW pte &&& 0x1f).testBit PTE_U = true := by
    rw [hperm, ← testBit_pteFlags (by decide), testBit_clearW (by decide) (by decide), hs.user]
  refine (createMapping_spec hd.paging (fun hf => hd.sparing.fresh (hfresh hf)) hrootj hva hs.data rfl (by rw [hperm]; exact hflags) hodd huser).mono ?_
    fun _ _ he => he
  rintro _ t ⟨lay', hm⟩
  have hnew : 2 ^ 10 * pteFrame pte + (clearW pte &&& 0x1f) = clearW pte := by
    rw [← hframe]
    exact mk_and_1f hflags
  rw [hnew] at hm
  have hback : ∀ r' va', lay.role r' = .table r' [] → UserVa va' →
      (r' ≠ lay.root j ∨ va' / 4096 % 2 ^ 27 ≠ va / 4096 % 2 ^ 27) →
        leafPte t.mem r' va' = leafPte (s.edit l (vpn va 0) (clearW pte)).mem r' va' := by
    intro r' va' hr' hva' hdiff
    rw [hm.others r' va' hr' hva' hdiff, hv.mem]
  refine ⟨lay', hpte, hm.paging, hm.role, ?_, hm.page, hm.root, ?_, ?_,
    hw.inner.trans (fun _ _ _ hp => hp) (by rw [← hv.mem]; exact hm.inner), ?_, hm.leaf, ?_, htasks.trans hm.tasks,
    hd.sparing.trans hm.sparing⟩
  · intro f h0 hf
    obtain ⟨hz, p, hp, -⟩ := hm.added f h0 hf
    refine ⟨?_, _, p, hp⟩
    have hfr := hm.paging.table_ram hp
    by_cases hfp : f = pteFrame pte
    · rw [hfp, hv.counted] at hz
      exact absurd hz (Nat.succ_ne_zero _)
    · rw [hv.others f hfr hfp] at hz
      exact hz
  · intro f hf href
    by_cases hfp : f = pteFrame pte
    · rw [if_pos hfp, hfp, hm.ref _ hfram (by rw [hv.counted]; exact Nat.succ_ne_zero _), hv.counted]
    · have hsame : v.ref f = s.ref f := hv.others f hf hfp
      rw [if_neg hfp, Nat.add_zero, hm.ref f hf (by rw [hsame]; exact href), hsame]
  · intro f hf
    refine (hm.frame f hf).trans ?_
    rw [hv.mem]
    refine hw.frame f fun r p hp => hf r p ?_
    rw [hm.role f (by rw [hp]; exact Role.noConfusion), hp]
  · intro va' hpage
    have huser' : UserVa va' := by
      rw [UserVa, VPN_eq] at hva ⊢
      omega
    rw [hback _ va' hroot huser' (.inl hapart.2)]
    exact hw.leaf va' hpage
  · intro r' va' hr' hva' hdiff
    have hj' : r' ≠ lay.root j ∨ va' / 4096 % 2 ^ 27 ≠ va / 4096 % 2 ^ 27 := by
      by_cases hp : va' / 4096 % 2 ^ 27 = va / 4096 % 2 ^ 27
      · exact .inl fun hrj => hdiff ⟨.inr hrj, hp⟩
      · exact .inr hp
    have hi' : r' ≠ lay.root i ∨ va' / 4096 % 2 ^ 27 ≠ va / 4096 % 2 ^ 27 := by
      by_cases hp : va' / 4096 % 2 ^ 27 = va / 4096 % 2 ^ 27
      · exact .inl fun hri => hdiff ⟨.inl hri, hp⟩
      · exact .inr hp
    rw [hback r' va' hr' hva' hj']
    exact hw.others r' va' hr' hva' hi'

/-- The frames that sharing a page takes: the tables that are missing in the child's address space. -/
theorem sharePage_counted {fresh : Prop} (h : Paging img lay s) (hfresh : fresh → Fresh img s) (hr : Running lay s i) (h1 : 1 ≤ j)
    (hj : j < NR_TASKS) (hne : s.task j ≠ 0) (hva : UserVa va) (halign : va % 4096 = 0)
    (hpte : leafPte s.mem (lay.root i) va = some pte) (hlt : s.ref (pteFrame pte) + 1 < 2 ^ 64) :
    Spec fresh (sharePage img (s.task j) va) s
      (fun _ t => WaysMade UserSlot (lay.root j) s.mem t.mem (ways va) ∧
        t.buddy.inUse = s.buddy.inUse + (absent s.mem (lay.root j) (ways va)).card)
      fun e _ => e = .null ∧ 2 ^ img.order < s.buddy.inUse + (absent s.mem (lay.root j) (ways va)).card := by
  refine sharePage_rule h hr h1 hj hne hva halign hpte hlt fun l v hd => ?_
  have hrootj := own_eq_some.mpr (h.task j h1 hj hne).root
  have hways := way_of_ways hva.allowed
  -- so far no way has been made and no frame has been taken
  have hmade : WaysMade UserSlot (lay.root j) s.mem v.mem ∅ := by
    rw [hd.recounted.mem]
    exact (h.tree.edit_leaf hrootj (own_eq_some.mpr hd.slot.role) rfl clearW_lt).waysMade hrootj
  have hcard := hmade.card_absent hways
  rw [Finset.empty_union, absent_empty, Finset.card_empty, Nat.zero_add] at hcard
  have hheld := h.held (pteFrame pte) (by rw [hd.slot.data]; exact Role.noConfusion)
  have huse : v.buddy.inUse = (s.edit l (vpn va 0) (clearW pte)).buddy.inUse :=
    hd.recounted.inUse hd.edited.paging.pages hheld.2.2 (Nat.succ_ne_zero _)
  rw [KState.edit_buddy] at huse
  have hperm : clearW pte &&& 0x1f < 2 ^ 64 := Nat.lt_of_le_of_lt Nat.and_le_right (by decide)
  refine (hd.paging.tree.createPage (fun hf => hd.sparing.fresh (hfresh hf)) hrootj hva.allowed hperm).mono ?_ ?_
  · rintro _ t ⟨hm, hu⟩
    have hall := hmade.trans (fun q hq => absurd hq (Finset.notMem_empty q)) hm
    rw [Finset.empty_union] at hall
    exact ⟨hall, by rw [hu, huse, ← hcard]⟩
  · rintro e t ⟨he, hfull⟩
    rw [huse, ← hcard] at hfull
    exact ⟨he, hfull⟩

end SharePage

end ZjuOs
