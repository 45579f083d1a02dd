import ZjuOs.Runs

/-! Steps that return: as long as enough frames are free, no step of a run halts for want of a page. -/
namespace ZjuOs
open Memory Exec Radix

/-- The invariant holds, free frames hold no valid entry, and more than `n` of them are left. -/
structure Roomy (img : Image) (lay : Layout) (s : KState) (n : Nat) : Prop where
  inv : RunInv img lay s
  fresh : Fresh img s
  clean : TablesClean s.trace
  room : s.buddy.inUse + n < 2 ^ img.order

section Roomy
variable {img : Image} {lay lay' : Layout} {s t : KState} {i j n k : Nat} {l : List Nat} {regs : PtRegs}

theorem Roomy.mono (h : Roomy img lay s n) (hk : k ≤ n) : Roomy img lay s k :=
  { h with room := by have := h.room; omega }

theorem Roomy.next (h : Roomy img lay s n) (hinv : RunInv img lay' t) (hs : Sparing img s t) (hw : Within k s t)
    (hk : k ≤ n) : Roomy img lay' t (n - k) :=
  ⟨hinv, hs.fresh h.fresh, hs.clean h.fresh h.clean, by have := h.room; have := hw.inUse; omega⟩

theorem Roomy.not_full (h : Roomy img lay s n) (hw : Within k s t) (hk : k ≤ n) : ¬ OutOfPages img t := fun hfull => by
  have hle := hfull.two_pow_le h.inv.paging.pages hw
  have := h.room
  omega

theorem Resolved.sparing {r va scause : Nat} {area : VmArea} (h : Resolved img lay s r va area scause lay' t) :
    Sparing img s t := by
  cases h with
  | demand g _ _ _ _ _ hm _ _ => exact hm.sparing
  | own old g _ _ _ _ _ hm _ => exact hm.sparing
  | copy old g g₁ _ _ _ _ _ _ _ _ _ _ hm _ _ _ _ => exact hm.sparing

theorem CowForked.sparing {m : Int} (h : Paging img lay s) (hr : Running lay s i) (hf : CowForked img lay s i l m lay' t) :
    Sparing img s t := by
  cases hf with
  | full _ _ _ hc => exact hc.sparing
  | child j c d u v _ hs hsh ht =>
      have hroot := ((hs.paging h).task_ok (hs.running hr).live).root
      have hij : i ≠ j := by
        rintro rfl
        exact hr.some hs.empty
      rw [show (lay.spawn j c d).root i = lay.root i from Function.update_of_ne hij ..] at hroot
      rw [ht]
      exact (hs.sparing.trans (hsh.kept (hs.paging h) hroot).sparing).trans (.fence _)

/-- A fault that is granted and not fatal is resolved. -/
theorem Roomy.fault (h : Roomy img lay s n) (regs : PtRegs) (hn : 4 ≤ n) (hi : s.Runs i) (hl : AreaList img s (mmapOf lay s i) l)
    (hgo : ∀ e t, Refused img lay s (lay.root i) regs.stval (selected s.vma l regs.stval) regs.scause e t →
      OutOfPages img t) :
    ∃ p lay' t, (doPageFault img regs).run s = .ok () t ∧ selected s.vma l regs.stval = some p ∧
      Resolved img lay s (lay.root i) regs.stval (s.vma p) regs.scause lay' t ∧ Roomy img lay' t (n - 4) := by
  have hfresh : True → Fresh img s := fun _ => h.fresh
  have hspec := (@doPageFault_spec img lay s i l regs True h.inv.paging hfresh (h.inv.running hi) hl).within
    (grows_doPageFault regs)
  cases hrun : (doPageFault img regs).run s with
  | ok _ t =>
      obtain ⟨⟨p, lay', hsel, -, hres⟩, hw⟩ := hspec.of_ok hrun (.inl trivial)
      exact ⟨p, lay', t, rfl, hsel, hres, h.next (h.inv.resolved hres) hres.sparing hw hn⟩
  | error e t =>
      obtain ⟨href, hw⟩ := hspec.of_error hrun (.inl trivial)
      exact absurd (hgo e t href) (h.not_full hw hn)

/-- The tables of a resolved fault are clean if all free frames were. -/
theorem RunInv.fault_clean (h : RunInv img lay s) (hi : s.Runs i) (hclean : TablesClean s.trace)
    (hrun : (doPageFault img regs).run s = .ok () t) (hnew : Fresh img s ∨ TablesClean t.trace) : TablesClean t.trace := by
  refine hnew.elim (fun hfresh => ?_) id
  obtain ⟨l, hl⟩ := h.areas i hi.1
  rw [← h.paging.mmap_eq hi.1] at hl
  have hspec : Spec True (doPageFault img regs) s _ _ := doPageFault_spec h.paging (fun _ => hfresh) (h.running hi) hl
  obtain ⟨p, lay', -, -, hres⟩ := hspec.of_ok hrun (.inl trivial)
  exact hres.sparing.clean hfresh hclean

/-- A fork returns. -/
theorem Roomy.fork (h : Roomy img lay s n) {regs : Nat} (hi : s.Runs i) (hl : AreaList img s (mmapOf lay s i) l)
    (hregs : regs < 2 ^ 64) (hframe : InFrame regs) (hn : 2 + 2 * looked s.vma l ≤ n) :
    ∃ m lay' t, (doCowFork img regs).run s = .ok m t ∧ CowForked img lay s i l m lay' t ∧
      Roomy img lay' t (n - (2 + 2 * looked s.vma l)) := by
  have hfresh : True → Fresh img s := fun _ => h.fresh
  have hspec := doCowFork_spec h.inv.paging hfresh (h.inv.running hi) h.inv.idle_ne hl hregs hframe (h.inv.count_lt hl)
  cases hrun : (doCowFork img regs).run s with
  | ok m t =>
      obtain ⟨⟨lay', hf⟩, hw⟩ := hspec.of_ok hrun (.inl trivial)
      exact ⟨m, lay', t, rfl, hf,
        h.next (h.inv.cowForked hi hl hf) (hf.sparing h.inv.paging (h.inv.running hi)) hw hn⟩
  | error e t =>
      obtain ⟨-, hfull, hw⟩ := hspec.of_error hrun (.inl trivial)
      exact absurd hfull (h.not_full hw hn)

theorem Roomy.switch (h : Roomy img lay s n) (hj : s.Live j) :
    ∃ t, (switchTo img (s.task j)).run s = .ok () t ∧ Stepped img lay s (.switch j) lay t ∧ Roomy img lay t n := by
  have hw := (@grows_switchTo img (s.task j)).run s
  cases hrun : (switchTo img (s.task j)).run s with
  | ok _ t =>
      obtain ⟨hstep, hinv⟩ := h.inv.switch hj hrun
      refine ⟨t, rfl, hstep, h.next hinv ?_ (hw.of_ok hrun) (Nat.zero_le n)⟩
      cases hstep with
      | stay => exact .refl s
      | switch _ _ _ hmem hbuddy _ _ htrace =>
          refine ⟨fun f _ h0 => ⟨?_, by rw [hmem]; exact .refl _ _⟩, fun page m hm => .inl ?_⟩
          · rwa [KState.ref, hbuddy] at h0
          · rw [htrace] at hm
            rcases List.mem_cons.mp hm with he | he
            · cases he
            · exact he
  | error e t => exact ((switchTo_spec h.inv.paging hj).of_error hrun).elim

end Roomy

section Boot
variable {img : Image} {lay : Layout} {s t : KState} {m : Mem} {n : Nat}

theorem Chain.unique {next : Nat → Nat} {p : Nat} {l l' : List Nat} (h : Chain next p l) (h' : Chain next p l') : l = l' := by
  induction l generalizing p l' with
  | nil =>
      cases l' with
      | nil => rfl
      | cons q l' => exact absurd h h'.2.1
  | cons q l ih =>
      obtain ⟨rfl, hne, hrest⟩ := h
      cases l' with
      | nil => exact absurd h' hne
      | cons q l' =>
          obtain ⟨rfl, -, hrest'⟩ := h'
          rw [ih hrest hrest']

theorem Segment.At.stop {g : Segment} {a : VmArea} (h : g.At a) : a.vm_end = (g.start + g.len) % 2 ^ 64 := h.2.1

/-- Segments below `USER_END` are areas below `USER_END`. -/
theorem Started.areasBelow (h : Started img m lay s) (he : ElfInside img m)
    (hend : ∀ g ∈ elfSegments img m, (g.start + g.len) % 2 ^ 64 ≤ USER_END) : AreasBelow s := by
  intro i hi l hchain p hp
  obtain ⟨l', hl', hareas⟩ := h.lists i hi
  obtain rfl := hchain.unique hl'.chain
  obtain ⟨k, hk, rfl⟩ := List.getElem_of_mem hp
  have hlen := (hareas he).length_eq
  have hat := (hareas he).get (hlen ▸ hk) hk
  rw [show l[k] = l.get ⟨k, hk⟩ from rfl, hat.stop]
  exact hend _ (List.get_mem ..)

/-- `task_init` returns when enough frames are free, and leaves the others free. -/
theorem Ready.boot (h : Ready img s) (hfresh : Fresh img s) (hclean : TablesClean s.trace) (he : ElfInside img s.mem)
    (hend : ∀ g ∈ elfSegments img s.mem, (g.start + g.len) % 2 ^ 64 ≤ USER_END)
    (hroom : s.buddy.inUse + (1 + s.tasksNumber * (phnum img s.mem + 4) + n) < 2 ^ img.order) :
    ∃ lay t, (taskInit img).run s = .ok () t ∧ AreasBelow t ∧ Started img s.mem lay t ∧ Roomy img lay t n ∧
      (∀ k, 1 ≤ k → (t.task k ≠ 0 ↔ k ≤ s.tasksNumber)) ∧ Sparing img s t := by
  have hspec := taskInit_spec h
  cases hrun : (taskInit img).run s with
  | ok _ t =>
      obtain ⟨lay, hs, -, htrace, hf, htask, hw⟩ := hspec.of_ok hrun
      have hbelow := hs.areasBelow he hend
      refine ⟨lay, t, rfl, hbelow, hs, ⟨hs.runInv hbelow, hf.fresh hfresh, htrace ▸ hclean, ?_⟩, htask, hf⟩
      have := (hw he).inUse
      omega
  | error e t =>
      rcases hspec.of_error hrun with ⟨-, hfull, hw⟩ | ⟨-, hno⟩
      · have := hfull.two_pow_le h.pages (hw he)
        omega
      · exact absurd he hno

end Boot

end ZjuOs
