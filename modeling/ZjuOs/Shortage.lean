import ZjuOs.Leaks

/-!
The frames that each operation needs. With that many free it does not use the null pointer that a failed allocation
returns; with fewer it does.
-/
namespace ZjuOs
open Memory Exec Radix

/-- When a call that needs `n` frames halts: at the null pointer only if they do not fit into what is free, and
otherwise after it has taken them. -/
def Halted (img : Image) (s : KState) (n : Nat) (e : Halt) (t : KState) : Prop :=
  if e = .null then 2 ^ img.order < s.buddy.inUse + n else t.buddy.inUse = s.buddy.inUse + n

/-- The call needs `n` frames. -/
def Needs (img : Image) (fresh : Prop) {α : Type} (x : K α) (s : KState) (n : Nat) : Prop :=
  Spec fresh x s (fun _ t => t.buddy.inUse = s.buddy.inUse + n) (Halted img s n)

/-- The call reads or writes through a null pointer. -/
def UsesNull {α : Type} (x : K α) (s : KState) : Prop := ∃ t, x.run s = .error .null t

/-- The frames that a call gets for page tables hold no valid entry. -/
def RunsClean {α : Type} (x : K α) (s : KState) : Prop :=
  Ends x s (fun _ t => TablesClean t.trace) fun _ t => TablesClean t.trace

section Counts
variable {img : Image} {dom : List (Fin 512) → Fin 512 → Prop} {own : Nat → Option (Nat × List (Fin 512))} {s t : KState}
  {r n k va : Nat} {e : Halt} {α : Type} {x : K α} {qs : Finset (List (Fin 512))}

theorem halted_null (h : 2 ^ img.order < s.buddy.inUse + n) : Halted img s n .null t := h

theorem halted_of_ne (he : e ≠ .null) (h : t.buddy.inUse = s.buddy.inUse + n) : Halted img s n e t := by
  rwa [Halted, if_neg he]

theorem inUse_le (hp : s.Pages img) (hw : Within k s t) : t.buddy.inUse ≤ 2 ^ img.order := by
  rw [← hp.size, ← hw.size]
  exact (Finset.card_filter_le _ _).trans_eq (Finset.card_range _)

/-- A call uses a null pointer exactly when the frames that it needs are not free. -/
theorem Needs.usesNull {fresh : Prop} (h : Needs img fresh x s n) (hg : Grows k x) (hp : s.Pages img) (hclean : fresh ∨ RunsClean x s) :
    UsesNull x s ↔ 2 ^ img.order < s.buddy.inUse + n := by
  rw [UsesNull]
  cases hx : x.run s with
  | ok a t =>
      have huse := h.of_ok hx (hclean.imp_right fun hc => hc.of_ok hx)
      have hle := inUse_le hp ((hg.run s).of_ok hx)
      refine iff_of_false (fun ⟨_, hno⟩ => by cases hno) ?_
      omega
  | error e t =>
      have hhalt := h.of_error hx (hclean.imp_right fun hc => hc.of_error hx)
      have hle := inUse_le hp ((hg.run s).of_error hx)
      rw [Halted] at hhalt
      by_cases he : e = .null
      · rw [if_pos he] at hhalt
        exact iff_of_true ⟨t, by rw [he]⟩ hhalt
      · rw [if_neg he] at hhalt
        refine iff_of_false (fun ⟨_, hno⟩ => ?_) (by omega)
        cases hno
        exact he rfl

/-- The ways that are missing depend on the tables only. -/
theorem TableTree.absent_congr {m : Mem} (h : TableTree img dom own s) (hr : own r = some (r, [])) (hqs : ∀ q ∈ qs, Way dom q)
    (hsame : ∀ f y, own f = some y → SameFrame m s.mem f) : absent m r qs = absent s.mem r qs := by
  refine Finset.filter_congr fun q hq => ?_
  rw [h.owned.descend_congr hr (by simpa using (hqs q hq).1) (hqs q hq).2 fun x r' p' hx _ => tables_congr (hsame x _ hx)]

/-- Nothing is missing on the way to a page that is mapped. -/
theorem absent_ways {m : Mem} {l : Nat} (h : descend pteFormat (tables m) r (path va) = some l) : absent m r (ways va) = ∅ := by
  refine Finset.filter_eq_empty_iff.mpr fun q hq => ?_
  rw [ways_eq, Finset.mem_union, Finset.mem_singleton, Finset.mem_singleton] at hq
  rcases hq with rfl | rfl
  · rw [path, ← List.singleton_append, descend_append] at h
    cases hd : descend pteFormat (tables m) r [vpn va 2] with
    | none => rw [hd] at h; cases h
    | some f => exact Bool.false_ne_true
  · rw [← path, h]
    exact Bool.false_ne_true

end Counts

section Calls
variable {img : Image} {lay lay₁ : Layout} {s t : KState} {r i g va pa sz perm : Nat} {l : List Nat} {regs : PtRegs}
  {fresh : Prop}

/-- `create_mapping` needs a frame for every table that is missing. -/
theorem createMapping_needs (h : Paging img lay s) (hfresh : fresh → Fresh img s) (hr : lay.role r = .table r [])
    (hva : ∀ va' ∈ pagesOf va sz, UserVa va') (hperm : perm < 2 ^ 64) :
    Needs img fresh (createMapping img (framePtr r) va pa sz perm) s (absent s.mem r (waysTo (pagesOf va sz))).card := by
  have hspec : Spec fresh (ZjuOs.mapPages img (framePtr r) perm ((sz + PGSIZE - 1) % 2 ^ 64 / PGSIZE) va pa) s _ _ :=
    h.tree.mapPages hfresh (own_eq_some.mpr hr) (fun va' hva' => (hva va' hva').allowed) hperm
  refine hspec.mono ?_ ?_
  · rintro _ t ⟨own', hext, -⟩
    exact hext.inUse
  · rintro e t ⟨rfl, hfull⟩
    exact halted_null hfull

theorem createPage_needs (h : Paging img lay s) (hfresh : fresh → Fresh img s) (hr : lay.role r = .table r [])
    (hva : UserVa va) (pa : Nat) (hperm : perm < 2 ^ 64) :
    Needs img fresh (createMapping img (framePtr r) va pa PGSIZE perm) s (absent s.mem r (ways va)).card := by
  refine (h.tree.createPage hfresh (own_eq_some.mpr hr) hva.allowed hperm).mono (fun _ _ ht => ht.2) ?_
  rintro e t ⟨rfl, hfull⟩
  exact halted_null hfull

/-- The frames that `do_page_fault` needs: the page that it always takes, and the missing tables or a second page. -/
def faultNeeds (s : KState) (root : Nat) (sel : Option Nat) (regs : PtRegs) : Nat :=
  match sel with
  | none => 0
  | some p =>
      if refuses regs.scause (s.vma p).vm_flags then 0
      else
        match leafPte s.mem root regs.stval with
        | none => 1 + (absent s.mem root (ways regs.stval)).card
        | some old => if regs.scause = STORE_FAULT ∧ old.testBit PTE_W = false ∧ s.ref (pteFrame old) ≠ 1 then 2 else 1

/-- The page has been taken; its tables are taken next. -/
theorem demandPage_needs (hfresh : fresh → Fresh img s) (he : Entered img lay lay₁ s t i g) (hva : UserVa va) (area : VmArea) :
    Needs img fresh (demandPage img area (framePtr g) va) t (absent t.mem (lay₁.root i) (ways va)).card := by
  have hperm : 0x11 ||| (area.vm_flags &&& 0xe) < 2 ^ 64 := demandPerm_lt.trans (by decide)
  have hmap := createPage_needs he.calm.paging (fun hf => he.calm.sparing.fresh (hfresh hf)) he.root_role hva
    (VA2PA (framePtr g)) hperm
  rw [demandPage]
  refine .currentPgd he.calm.paging he.running ?_
  refine Spec.bind hmap (fun _ => grows_ite (grows_memcpy ..) (grows_pure _)) fun _ u hu => ?_
  by_cases hfile : area.vm_flags &&& 0x1 ≠ 1
  · rw [if_pos hfile]
    exact .of_ends (ends_memcpy_buddy.mono (fun _ w hw => by rw [hw, hu])
      fun e w hw => halted_of_ne (by rw [hw.1]; decide) (by rw [hw.2, hu]))
  · rw [if_neg hfile]
    exact .pure hu

theorem faultNeeds_refused {root : Nat} {sel : Option Nat} (h : ∀ p, sel = some p → refuses regs.scause (s.vma p).vm_flags = true) :
    faultNeeds s root sel regs = 0 := by
  cases sel with
  | none => rfl
  | some p => exact if_pos (h p rfl)

theorem faultNeeds_granted {root p : Nat} (h : refuses regs.scause (s.vma p).vm_flags = false) :
    faultNeeds s root (some p) regs = match leafPte s.mem root regs.stval with
      | none => 1 + (absent s.mem root (ways regs.stval)).card
      | some old => if regs.scause = STORE_FAULT ∧ old.testBit PTE_W = false ∧ s.ref (pteFrame old) ≠ 1 then 2 else 1 :=
  if_neg (Bool.eq_false_iff.mp h)

theorem cowPage_needs {old p : Nat} (h : Paging img lay s) (hfresh : fresh → Fresh img s) (he : Entered img lay lay₁ s t i g)
    (hle : va ≤ USER_END) (hpte : leafPte s.mem (lay.root i) va = some old) {scause : Nat}
    (hgrant : refuses scause (s.vma p).vm_flags = false) :
    Spec fresh (cowPage img scause (s.vma p).vm_flags va) t
      (fun _ u => u.buddy.inUse = s.buddy.inUse +
        if scause = STORE_FAULT ∧ old.testBit PTE_W = false ∧ s.ref (pteFrame old) ≠ 1 then 2 else 1)
      (Halted img s (if scause = STORE_FAULT ∧ old.testBit PTE_W = false ∧ s.ref (pteFrame old) ≠ 1 then 2 else 1)) := by
  have huse := he.inUse h
  refine cowPage_rule h he hle hpte (refuses_store hgrant) (fun hno => ?_) (fun l hs hstore hw hone => ?_) fun l hs hstore hw hmany => ?_
  · rw [if_neg fun hyes => hno ⟨hyes.1, hyes.2.1⟩]
    exact halted_of_ne (by decide) huse
  · rw [if_neg fun hyes => hyes.2.2 hone]
    exact (ends_storeEntry (he.calm.paging.table_ram hs.role) (VPN_lt va 0)).mpr fun _ => huse
  · rw [if_pos ⟨hstore, hw, hmany⟩]
    refine cowCopy_rule h he hle hpte hs hmany (fun u hp hout hu => ?_) (fun u hu _ => halted_of_ne (by decide) hu) fun lay₂ g₂ u hc hu => ?_
    · -- the second page is the one that is missing
      have hall := OutOfPages.inUse hp hout
      exact halted_null (by omega)
    · obtain ⟨l', hslot⟩ := hc.slot
      have hcalm := hc.calm.fence u.mem
      have hrun : Running lay₂ (u.log (.fence u.mem)) i := { hc.running with }
      have hroot := (hcalm.paging.task i hrun.pos hrun.lt hrun.some).root
      have hperm : (old &&& 0x1f) ||| 0x4 < 2 ^ 64 := copyPerm_lt.trans (by decide)
      refine ends_bind.mpr (ends_modify.mpr ?_)
      refine Spec.currentPgd hcalm.paging hrun ?_
      have hmap := createPage_needs hcalm.paging (fun hf => hcalm.sparing.fresh (hfresh hf)) hroot
        (.of_le_end hle) (VA2PA (framePtr g₂)) hperm
      rw [KState.log_mem, absent_ways hslot.descend, Finset.card_empty] at hmap
      refine hmap.mono (fun _ w hw => ?_) fun e w hw => ?_
      · rw [hw, KState.log_buddy, hu]
      · rw [Halted, KState.log_buddy, hu] at hw
        exact hw

/-- `do_page_fault` needs the page that it always takes, and the missing tables or a second page. -/
theorem doPageFault_needs (h : Paging img lay s) (hfresh : fresh → Fresh img s) (hr : Running lay s i)
    (hl : AreaList img s (mmapOf lay s i) l) :
    Needs img fresh (doPageFault img regs) s (faultNeeds s (lay.root i) (selected s.vma l regs.stval) regs) := by
  refine doPageFault_rule h hr hl (fun hno => ?_) (fun p hsel hgrant hout => ?_) fun p g u hsel hgrant htaken he => ?_
  · rw [faultNeeds_refused hno]
    exact halted_of_ne (by decide) rfl
  · have huse := OutOfPages.inUse h.pages hout
    refine halted_null ?_
    rw [hsel, faultNeeds_granted hgrant, huse]
    cases leafPte s.mem (lay.root i) regs.stval with
    | none => exact Nat.lt_add_of_pos_right (Nat.lt_of_lt_of_le Nat.one_pos (Nat.le_add_right ..))
    | some old => exact Nat.lt_add_of_pos_right (by dsimp only; split <;> decide)
  · have huse := he.inUse h
    obtain ⟨hmem, -, hend⟩ := selected_some hsel
    have hle : regs.stval ≤ USER_END := hend.trans (hl.below p hmem)
    have hfree := htaken.other h
    rw [hsel, faultNeeds_granted hgrant]
    cases hpte : leafPte s.mem (lay.root i) regs.stval with
    | none =>
        rw [if_pos rfl]
        have hva := hl.userVa hsel
        have hroot := (h.task i hr.pos hr.lt hr.some).root
        have hsame : absent (u.withMem (fill u.mem (g * 4096) 8 0)).mem ((lay.withRole g .data).root i) (ways regs.stval) =
            absent s.mem (lay.root i) (ways regs.stval) := by
          refine h.tree.absent_congr (own_eq_some.mpr hroot) (way_of_ways hva.allowed) fun f y hf => ?_
          have hfg : f ≠ g := by
            rintro rfl
            rw [own_eq_some.mp hf] at hfree
            cases hfree
          rw [KState.withMem_mem, htaken.mem]
          have hfill := sameFrame_fill (m := s.mem) (n := 8) (o := 0) (c := 0) (by decide) hfg.symm
          rwa [Nat.add_zero] at hfill
        have hmap := demandPage_needs hfresh he hva (s.vma p)
        rw [hsame] at hmap
        refine hmap.mono (fun _ w hw => ?_) fun e w hw => ?_
        · rw [hw, huse, Nat.add_assoc]
        · rw [Halted, huse, Nat.add_assoc] at hw
          exact hw
    | some old =>
        rw [if_neg (Option.some_ne_none old)]
        exact cowPage_needs h hfresh he hle hpte hgrant

/-- `do_mmap` needs a page for the node. -/
theorem doMmap_needs (h : s.Pages img) {mm addr len off size flags : Nat} :
    Needs img fresh (doMmap img mm addr len off size flags) s 1 := by
  refine .of_ends ?_
  rw [doMmap, ends_bind]
  refine (allocPage_spec h).mono ?_ fun _ _ hno => hno.elim
  rintro q u (⟨rfl, rfl, hout⟩ | ⟨g, rfl, htaken⟩)
  · have huse := OutOfPages.inUse h hout
    rw [ends_bind, ends_notNull, if_pos rfl]
    exact halted_null (by omega)
  · have huse := htaken.inUse h
    have hword : ∀ {bit va : Nat} {w : KState} {Q : Nat → KState → Prop}, w.buddy = u.buddy → (∀ pa, Q pa w) →
        Ends (kernelPa img bit va) w Q (Halted img s 1) := fun {_ _ w _} hw hQ =>
      ends_kernelPa_any.mono (fun pa t ht => by rw [ht]; exact hQ pa)
        fun e t he => halted_of_ne (by rw [he.1]; decide) (by rw [he.2, hw, huse])
    rw [ends_bind, ends_notNull, if_neg (framePtr_ne_zero g)]
    simp only [loadWord, storeWord, ends_bind, ends_get, ends_pure, ends_modify]
    exact hword rfl fun _ => hword rfl fun _ => huse

end Calls

section Runs
variable {img : Image} {ok : KState → Act → Prop} {s : KState} {i : Nat} {l : List Nat}

/-- In every state that is reached, each operation uses the null pointer of a failed allocation exactly when the frames
that it needs are not free. -/
theorem null_iff_short (h : Reachable img ok s) (hclean : TablesClean s.trace) (hi : s.Runs i)
    (hl : Chain (fun p => (s.vma p).vm_next) (s.mmap i) l) :
    (∀ j va pa sz perm, s.Live j → (∀ va' ∈ pagesOf va sz, UserVa va') → perm < 2 ^ 64 →
      Fresh img s ∨ RunsClean (createMapping img (framePtr (s.root j)) va pa sz perm) s →
      (UsesNull (createMapping img (framePtr (s.root j)) va pa sz perm) s ↔
        2 ^ img.order < s.buddy.inUse + (absent s.mem (s.root j) (waysTo (pagesOf va sz))).card)) ∧
    (∀ regs, Fresh img s ∨ RunsClean (doPageFault img regs) s → (UsesNull (doPageFault img regs) s ↔
      2 ^ img.order < s.buddy.inUse + faultNeeds s (s.root i) (selected s.vma l regs.stval) regs)) ∧
    (∀ mm addr len off size flags, UsesNull (doMmap img mm addr len off size flags) s ↔
      2 ^ img.order < s.buddy.inUse + 1) ∧
    ∀ regs, regs < 2 ^ 64 → InFrame regs → Fresh img s ∨ RunsClean (doCowFork img regs) s →
      (UsesNull (doCowFork img regs) s ↔ 2 ^ img.order < s.buddy.inUse + forkNeeds s (s.root i) l) := by
  obtain ⟨lay, hinv⟩ := h.inv hclean
  obtain ⟨l', hlist⟩ := hinv.areas i hi.1
  obtain rfl := hl.unique hlist.chain
  rw [← hinv.paging.mmap_eq hi.1] at hlist
  have hp := hinv.paging.pages
  have hr := hinv.running hi
  refine ⟨fun j va pa sz perm hj hva hperm hrun => ?_, fun regs hrun => ?_, fun mm addr len off size flags => ?_,
    fun regs hregs hframe hrun => ?_⟩
  · rw [hinv.paging.root_eq hj] at hrun ⊢
    exact (createMapping_needs hinv.paging id (hinv.paging.task_ok hj).root hva hperm).usesNull (grows_mapping ..) hp hrun
  · rw [hinv.paging.root_eq hi.1]
    exact (doPageFault_needs hinv.paging id hr hlist).usesNull (grows_doPageFault regs) hp hrun
  · exact (doMmap_needs hp : Needs img True _ s 1).usesNull (grows_doMmap ..) hp (.inl trivial)
  · rw [hinv.paging.root_eq hi.1]
    have hneeds : Needs img (Fresh img s) (doCowFork img regs) s (forkNeeds s (lay.root i) l) :=
      (doCowFork_counted hinv.paging id hr hinv.idle_ne hlist hregs hframe (hinv.count_lt hlist)).mono (fun _ _ ht => ht.2.2)
        fun e t he => by
          obtain ⟨rfl, -, -, hshort⟩ := he
          exact halted_null hshort
    exact hneeds.usesNull (grows_doCowFork regs) hp hrun

theorem card_ways (va : Nat) : (ways va).card ≤ 2 := Finset.card_le_two

theorem null_iff_short_board : ∃ s l regs, s.Runs 1 ∧ Chain (fun p => (s.vma p).vm_next) (s.mmap 1) l ∧
    (UsesNull (createMapping board (framePtr (s.root 1)) 0x3000 0x80300000 PGSIZE 0x17) s ↔
      2 ^ 15 < s.buddy.inUse + (absent s.mem (s.root 1) (waysTo (pagesOf 0x3000 PGSIZE))).card) ∧
    (UsesNull (doPageFault board ⟨LOAD_FAULT, 0x1000⟩) s ↔
      2 ^ 15 < s.buddy.inUse + faultNeeds s (s.root 1) (selected s.vma l 0x1000) ⟨LOAD_FAULT, 0x1000⟩) ∧
    (UsesNull (doMmap board (s.task 1 + TASK_MM) 0x3000 PGSIZE 0 0 6) s ↔ 2 ^ 15 < s.buddy.inUse + 1) ∧
    (UsesNull (doCowFork board regs) s ↔ 2 ^ 15 < s.buddy.inUse + forkNeeds s (s.root 1) l) := by
  obtain ⟨lay, s, h, -, -⟩ := board_entered (n := 8) (by decide)
  obtain ⟨l, m, lay', t, regs, hl, -, -, -, hfork, -⟩ := OnBoard.fork (n := 0) h
  have hp := h.room.inv.paging
  have hhead := hl.chain
  rw [hp.mmap_eq h.runs.1] at hhead
  have hlow : ∀ va ∈ pagesOf 0x3000 PGSIZE, UserVa va := fun va hva => by
    obtain rfl := List.mem_singleton.mp hva
    exact .of_lt (Nat.le_of_ble_eq_true rfl)
  cases hfork with
  | fork hi hregs hframe _ =>
      obtain ⟨hcreate, hfault, hmmap, hforks⟩ := null_iff_short h.reach h.room.clean h.runs hhead
      exact ⟨s, l, regs, h.runs, hhead, hcreate 1 _ _ _ _ h.runs.1 hlow (by decide) (.inl h.room.fresh),
        hfault _ (.inl h.room.fresh), hmmap _ _ _ _ _ _, hforks regs hregs hframe (.inl h.room.fresh)⟩

/-- With `task[]` full, every fork call takes a page until none is left. -/
theorem exhaust {regs k : Nat} (h : Reachable img (fun _ _ => True) s) (hclean : TablesClean s.trace)
    (hfull : ∀ j, j < NR_TASKS → s.task j ≠ 0) (hi : s.Runs i) (hregs : regs < 2 ^ 64) (hframe : InFrame regs)
    (hk : s.buddy.inUse + k ≤ 2 ^ img.order) :
    ∃ t, Reachable img (fun _ _ => True) t ∧ TablesClean t.trace ∧ SameTasks s t ∧ t.buddy.inUse = s.buddy.inUse + k := by
  induction k with
  | zero => exact ⟨s, h, hclean, .refl s, rfl⟩
  | succ k ih =>
      obtain ⟨t, ht, hclean', hsame, huse⟩ := ih (by omega)
      obtain ⟨lay, hinv⟩ := ht.inv hclean'
      have hi' : t.Runs i := hsame.runs.mpr hi
      have hfork := hinv.refused (fun j hj => by rw [hsame.task]; exact hfull j hj) hi' hregs hframe
      cases hrun : (doCowFork img regs).run t with
      | error e u =>
          obtain ⟨-, -, hshort⟩ := hfork.of_error hrun
          omega
      | ok n u =>
          obtain ⟨-, hu⟩ := hfork.of_ok hrun
          refine ⟨u, .step ht trivial (.fork hi' hregs hframe hrun), by rw [hu.trace]; exact hclean', hsame.trans hu.tasks, ?_⟩
          rw [hu.inUse, huse, Nat.add_assoc]

/-- A fork on the board without a free page. -/
theorem null_used_board : ∃ s regs, Reachable board (fun _ _ => True) s ∧ s.Runs 1 ∧ regs = s.task 1 + 0xee0 ∧
    UsesNull (doCowFork board regs) s := by
  obtain ⟨lay, s, h, hfull⟩ := board_full (n := 0) (by decide)
  have hp := h.room.inv.paging
  have hram := hp.page_ram h.runs.1
  obtain ⟨hregs, hframe⟩ := topFrame hram
  have hroom := h.room.room
  obtain ⟨t, ht, hclean, hsame, huse⟩ := exhaust (k := 2 ^ board.order - s.buddy.inUse) h.reach h.room.clean hfull h.runs hregs
    hframe (by omega)
  obtain ⟨lay', hinv⟩ := ht.inv hclean
  have hi : t.Runs 1 := hsame.runs.mpr h.runs
  refine ⟨t, framePtr (lay.page 1) + 0xee0, ht, hi, ?_, ?_⟩
  · rw [hsame.task, (hp.task_ok h.runs.1).ptr]
  · have hfork := hinv.refused (fun j hj => by rw [hsame.task]; exact hfull j hj) hi hregs hframe
    cases hrun : (doCowFork board (framePtr (lay.page 1) + 0xee0)).run t with
    | error e u =>
        obtain ⟨rfl, -⟩ := hfork.of_error hrun
        exact ⟨u, hrun⟩
    | ok n u =>
        obtain ⟨-, hu⟩ := hfork.of_ok hrun
        have hle := inUse_le (t := u) hinv.paging.pages (((grows_doCowFork _).run t).of_ok hrun)
        rw [hu.inUse] at hle
        omega

end Runs

end ZjuOs
