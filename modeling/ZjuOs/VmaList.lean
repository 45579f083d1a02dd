import ZjuOs.Board
import ZjuOs.Keeping

/-! `VMA_init`: the nodes form a doubly linked list, one for the user stack and one for each loadable segment. -/
namespace ZjuOs
open Memory Exec Radix

/-- The back pointers of the nodes `l`, when `b` is the node before them. -/
def BackLinks (vma : Nat → VmArea) : Nat → List Nat → Prop
  | _, [] => True
  | b, p :: l => (vma p).vm_prev = b ∧ BackLinks vma p l

/-- The nodes `l` are the doubly linked list of the task at frame `c`. -/
structure Doubly (img : Image) (s : KState) (c : Nat) (l : List Nat) : Prop extends
    NodeList img s (ld 8 s.mem (c * 4096 + TASK_MM)) l where
  back : BackLinks s.vma 0 l
  owner : ∀ p ∈ l, (s.vma p).vm_mm = framePtr c + TASK_MM

/-- The area of the user stack. -/
structure StackArea (a : VmArea) : Prop where
  start : a.vm_start = USER_END - PGSIZE
  stop : a.vm_end = USER_END
  flags : a.vm_flags = VM_ANON ||| VM_READ ||| VM_WRITE

/-- `vm_flags` of a segment: R, W and X as in its `p_flags`, and nothing else. -/
structure SegmentFlags (flags perm : Nat) : Prop where
  anon : perm &&& VM_ANON = 0
  read : perm &&& VM_READ ≠ 0 ↔ flags &&& PF_R ≠ 0
  write : perm &&& VM_WRITE ≠ 0 ↔ flags &&& PF_W ≠ 0
  exec : perm &&& VM_EXEC ≠ 0 ↔ flags &&& PF_X ≠ 0
  lt : perm < 16

/-- The area of a loadable segment. -/
structure SegmentArea (p : Elf64Phdr) (a : VmArea) : Prop where
  start : a.vm_start = p.p_vaddr
  stop : a.vm_end = (p.p_vaddr + p.p_memsz) % 2 ^ 64
  pgoff : a.vm_pgoff = p.p_offset
  filesz : a.vm_filesz = p.p_filesz
  flags : SegmentFlags p.p_flags a.vm_flags

/-- `n` program headers from the physical address `a`. -/
def phdrs (m : Mem) (n a : Nat) : List Elf64Phdr := (List.range n).map fun i => phdrAt m (a + 56 * i)

/-- The program headers of the ramdisk. -/
def headers (img : Image) (m : Mem) : List Elf64Phdr :=
  phdrs m (phnum img m) (VA2PA img.sramdisk + ld 8 m (VA2PA img.sramdisk + 32))

section Links
variable {img : Image} {s t : KState} {vma vma' : Nat → VmArea} {next : Nat → Nat} {c g p b : Nat} {a : VmArea}
  {l l' : List Nat}

theorem BackLinks.congr (h : BackLinks vma b l) (hl : ∀ p ∈ l, (vma' p).vm_prev = (vma p).vm_prev) :
    BackLinks vma' b l := by
  induction l generalizing b with
  | nil => trivial
  | cons p l ih =>
      refine ⟨(hl p List.mem_cons_self).trans h.1, ih h.2 fun q hq => hl q (List.mem_cons_of_mem p hq)⟩

/-- `do_mmap` prepends: the old head, if there is one, points back to the new node. -/
theorem Doubly.mmap (h : Doubly img s c l) (hm : Mmapped img s t c g a)
    (hvma : t.vma = (s.link (framePtr g) (ld 8 s.mem (c * 4096 + TASK_MM)) a).vma) (hprev : a.vm_prev = 0)
    (hmm : a.vm_mm = framePtr c + TASK_MM) : Doubly img t c (framePtr g :: l) := by
  have hnot := h.not_mem hm.free
  refine ⟨hm.cons h.toNodeList, ⟨by rw [hm.area, hprev], ?_⟩, ?_⟩
  · cases l with
    | nil => trivial
    | cons q l =>
        obtain ⟨hq, hne, -⟩ := h.chain
        rw [List.mem_cons, not_or] at hnot
        have hnew : ∀ r, r ≠ framePtr g → t.vma r =
            (if r = q then { s.vma q with vm_prev := framePtr g } else s.vma r) := fun r hr => by
          rw [hvma, KState.link_vma, hq, if_neg (hq ▸ hne), Function.update_of_ne hr, Function.update_apply]
        refine ⟨by rw [hnew q (Ne.symm hnot.1), if_pos rfl], h.back.2.congr fun r hr => ?_⟩
        have hrq : r ≠ q := by
          rintro rfl
          exact (List.nodup_cons.mp h.nodup).1 hr
        have hrg : r ≠ framePtr g := by
          rintro rfl
          exact hnot.2 hr
        rw [hnew r hrg, if_neg hrq]
  · intro q hq
    rcases List.mem_cons.mp hq with rfl | hq
    · rw [hm.area, hmm]
    · obtain ⟨b, hb⟩ := hm.rest q fun he => hnot (he ▸ hq)
      rw [hb]
      exact h.owner q hq

/-- A store in another word of the page of the task. -/
theorem Doubly.withMem (h : Doubly img s c l) {m : Mem}
    (hm : ld 8 m (c * 4096 + TASK_MM) = ld 8 s.mem (c * 4096 + TASK_MM)) : Doubly img (s.withMem m) c l where
  toNodeList := by
    rw [KState.withMem_mem, hm]
    exact h.toNodeList.mono rfl fun _ _ hne => hne
  back := h.back
  owner := h.owner

/-- The task at frame `c` has a doubly linked list. -/
def Linked (img : Image) (c : Nat) (s : KState) : Prop := s.Pages img ∧ ∃ l, Doubly img s c l

theorem keeps_doMmap (hc : img.Ram c) (addr len pgoff filesz flags : Nat) :
    Keeps (Linked img c) (doMmap img (framePtr c + TASK_MM) addr len pgoff filesz flags) := by
  refine ⟨fun s ⟨h, l, hd⟩ => (doMmap_link h hc).mono ?_ fun _ _ _ => trivial⟩
  rintro _ t ⟨-, g, a, rfl, hm, hvma⟩
  exact ⟨hm.pages, _, hd.mmap hm hvma rfl rfl⟩

end Links

section Init
variable {img : Image} {s : KState} {c task : Nat} {l : List Nat}

theorem keeps_loadField {P : KState → Prop} (va n : Nat) : Keeps P (loadField img va n) := by
  induction n generalizing va with
  | zero => exact keeps_pure _
  | succ n ih => exact keeps_bind (keeps_loadByte _) fun _ => keeps_bind (ih _) fun _ => keeps_pure _

theorem keeps_loadPhdr {P : KState → Prop} (va : Nat) : Keeps P (loadPhdr img va) :=
  keeps_bind (keeps_loadField ..) fun _ => keeps_bind (keeps_loadField ..) fun _ =>
    keeps_bind (keeps_loadField ..) fun _ => keeps_bind (keeps_loadField ..) fun _ =>
      keeps_bind (keeps_loadField ..) fun _ => keeps_bind (keeps_loadField ..) fun _ => keeps_pure _

/-- What `do_mmap` keeps, the header loop keeps. -/
theorem keeps_mmapSegments {P : KState → Prop}
    (hP : ∀ addr len pgoff filesz flags, Keeps P (doMmap img (task + TASK_MM) addr len pgoff filesz flags))
    (n phdr : Nat) : Keeps P (mmapSegments img task n phdr) := by
  induction n generalizing phdr with
  | zero => exact keeps_pure _
  | succ n ih =>
      refine keeps_bind (keeps_loadPhdr _) fun p => keeps_ite (keeps_bind (hP ..) fun _ => ih _) (ih _)

theorem keeps_vmaInit (hc : img.Ram c) : Keeps (Linked img c) (vmaInit img (framePtr c)) := by
  refine keeps_bind (keeps_loadField ..) fun off => keeps_bind (keeps_loadField ..) fun num => ?_
  refine keeps_bind (keeps_mmapSegments (keeps_doMmap hc) ..) fun _ => keeps_bind (keeps_doMmap hc ..) fun _ => ?_
  refine keeps_bind (keeps_loadField ..) fun entry => ⟨fun s ⟨h, l, hd⟩ => ?_⟩
  refine (ends_storeWord hc (by decide)).mpr ⟨h, l, hd.withMem ?_⟩
  exact ld_sd_of_disjoint (by simp only [TASK_MM, THREAD_SEPC]; omega)

/-- The segments are those of the loadable headers, the last one first. -/
theorem segments_eq (m : Mem) (n a : Nat) :
    segments m n a = ((phdrs m n a).filter fun p => p.p_type = PT_LOAD).reverse.map Elf64Phdr.segment := by
  induction n generalizing a with
  | zero => rfl
  | succ n ih =>
      have hphdrs : phdrs m (n + 1) a = phdrAt m a :: phdrs m n (a + 56) := by
        rw [phdrs, List.range_succ_eq_map, List.map_cons, List.map_map, Nat.mul_zero, Nat.add_zero, phdrs]
        refine congrArg _ (List.map_congr_left fun i _ => ?_)
        rw [Function.comp_apply, Nat.mul_succ, Nat.add_comm (56 * i), Nat.add_assoc]
      rw [segments, ih, hphdrs]
      by_cases hload : (phdrAt m a).p_type = PT_LOAD
      · rw [if_pos hload, List.filter_cons_of_pos (by simpa using hload), List.reverse_cons, List.map_append]
        rfl
      · rw [if_neg hload, List.filter_cons_of_neg (by simpa using hload), List.append_nil]

/-- The three permissions change their places. -/
theorem segmentPerm_flags (flags : Nat) : SegmentFlags flags (segmentPerm flags) := by
  have hr : flags &&& 0x4 = _ := Nat.and_two_pow flags 2
  have hw : flags &&& 0x2 = _ := Nat.and_two_pow flags 1
  have hx : flags &&& 0x1 = _ := Nat.and_two_pow flags 0
  have hperm : segmentPerm flags = ((flags.testBit 1).toNat * 2 ^ 1) <<< 1 |||
      ((flags.testBit 2).toNat * 2 ^ 2) >>> 1 ||| ((flags.testBit 0).toNat * 2 ^ 0) <<< 3 := by
    rw [segmentPerm, hr, hw, hx]
  rw [hperm]
  constructor
  case anon => cases flags.testBit 2 <;> cases flags.testBit 1 <;> cases flags.testBit 0 <;> rfl
  case read =>
    rw [PF_R, hr]
    cases flags.testBit 2 <;> cases flags.testBit 1 <;> cases flags.testBit 0 <;> decide
  case write =>
    rw [PF_W, hw]
    cases flags.testBit 2 <;> cases flags.testBit 1 <;> cases flags.testBit 0 <;> decide
  case exec =>
    rw [PF_X, hx]
    cases flags.testBit 2 <;> cases flags.testBit 1 <;> cases flags.testBit 0 <;> decide
  case lt => cases flags.testBit 2 <;> cases flags.testBit 1 <;> cases flags.testBit 0 <;> decide

theorem segmentArea {p : Elf64Phdr} {a : VmArea} (h : p.segment.At a) : SegmentArea p a := by
  obtain ⟨hstart, hstop, hpgoff, hfilesz, hflags⟩ := h
  exact ⟨hstart, hstop, hpgoff, hfilesz, hflags ▸ segmentPerm_flags p.p_flags⟩

theorem stackArea {a : VmArea} (h : stackSegment.At a) : StackArea a := by
  obtain ⟨hstart, hstop, -, -, hflags⟩ := h
  exact ⟨hstart, hstop.trans (by decide), hflags.trans (by decide)⟩

/-- `VMA_init` on a task without areas. It returns if a frame is free for the stack's node and for each of the others. -/
theorem vmaInit_faithful (h : s.Pages img) (hc : img.Ram c) (habove : img.firstFree ≤ c)
    (hempty : ld 8 s.mem (c * 4096 + TASK_MM) = 0) (helf : ElfInside img s.mem) :
    Ends (vmaInit img (framePtr c)) s
      (fun _ t => ∃ p l, Doubly img t c (p :: l) ∧ StackArea (t.vma p) ∧
        List.Forall₂ (fun h q => SegmentArea h (t.vma q))
          ((headers img s.mem).filter fun h => h.p_type = PT_LOAD).reverse l)
      fun e t => e = .null ∧ OutOfPages img t ∧ 2 ^ img.order <
        s.buddy.inUse + (1 + ((headers img s.mem).filter fun h => h.p_type = PT_LOAD).length) := by
  have hnil : NodeList img s (ld 8 s.mem (c * 4096 + TASK_MM)) [] :=
    ⟨hempty, List.nodup_nil, fun p hp => by cases hp⟩
  have hd : Doubly img s c [] := ⟨hnil, trivial, fun p hp => by cases hp⟩
  refine ((vmaInit_spec h hc habove).and ((keeps_vmaInit hc).run s ⟨h, [], hd⟩)).mono ?_ ?_
  · rintro _ t ⟨⟨gs, l, u, v, hm, ht, hgs⟩, -, l', hl'⟩
    have hlist := (hm.nodeList hnil).chain
    have hareas := hm.areas hnil
    rw [List.append_nil] at hlist
    have hvma : t.vma = u.vma := by rw [ht, KState.withMem_vma]
    have hword : ld 8 t.mem (c * 4096 + TASK_MM) = ld 8 u.mem (c * 4096 + TASK_MM) := by
      rw [ht, KState.withMem_mem]
      exact ld_sd_of_disjoint (by simp only [TASK_MM, THREAD_SEPC]; omega)
    have hchain := hl'.chain
    rw [hvma, hword] at hchain
    rw [(hgs helf).1, elfSegments, segments_eq, ← hvma] at hareas
    cases hareas with
    | cons hstack hrest =>
        rw [← hlist.unique hchain] at hl'
        rw [List.forall₂_map_left_iff] at hrest
        exact ⟨_, _, hl', stackArea hstack, hrest.imp fun _ _ hq => segmentArea hq⟩
  · rintro e t ⟨he | ⟨-, hno⟩, -⟩
    · have hshort := (he.2.2 helf).2
      rw [elfSegments, segments_eq, List.length_cons, List.length_map, List.length_reverse, Nat.add_comm _ 1] at hshort
      exact ⟨he.1, he.2.1, hshort⟩
    · exact absurd helf hno

/-- `task_init` gives the task in slot `i` a doubly linked list. -/
theorem initTask_linked {lay : Layout} {i : Nat} (h : Paging img lay s) (h1 : 1 ≤ i) (hi : i < NR_TASKS) (hempty : s.task i = 0) :
    Ends (initTask img i) s (fun _ t => ∃ c, t.task i = framePtr c ∧ Linked img c t) fun _ _ => True := by
  refine ends_initTask h h1 hi hempty (fun _ _ _ => trivial) fun t c d hs _ _ _ => ?_
  have hnil : NodeList img t (ld 8 t.mem (c * 4096 + TASK_MM)) [] :=
    ⟨hs.mm, List.nodup_nil, fun p hp => by cases hp⟩
  have hlinked : Linked img c t := ⟨hs.pages, [], hnil, trivial, fun p hp => by cases hp⟩
  refine ((vmaInit_spec hs.pages hs.ramPage hs.abovePage).and ((keeps_vmaInit hs.ramPage).run t hlinked)).mono ?_
    fun _ _ _ => trivial
  rintro _ u ⟨⟨gs, l, v, w, hm, rfl, -⟩, hu⟩
  refine ⟨c, ?_, hu⟩
  rw [KState.withMem_task, hm.task.1, hs.task, Function.update_self]

end Init

section Board
variable {m : Mem} {gs : List Segment} {n : Nat}

/-- The list of task 1 when it first runs. -/
theorem BootMem.linked (h : BootMem m gs) (hn : n ≤ 30000) :
    ∃ lay s l, Loaded m gs lay s n ∧ s.Runs 1 ∧ Doubly board s (lay.page 1) l := by
  obtain ⟨b, lay, t, hready, hrun, ht⟩ := h.run hn
  have hinit : Ends (taskInit board) (boardWith m b) (fun _ t => ∃ c, t.task 1 = framePtr c ∧ Linked board c t)
      fun _ _ => True := by
    refine ends_taskInit hready (fun _ _ _ => trivial) fun u hu _ _ _ hzero _ => ?_
    have hnumber : (boardWith m b).tasksNumber = 1 := rfl
    rw [hnumber]
    refine ends_bind.mpr ((initTask_linked hu.paging le_rfl (by decide) (hzero 1 le_rfl)).mono ?_ fun _ _ _ => trivial)
    exact fun _ v hv => ends_pure.mpr hv
  obtain ⟨c, hc, -, l, hl⟩ := hinit.of_ok hrun
  have hpage := (ht.room.inv.paging.task_ok ht.live).ptr
  obtain rfl := framePtr_inj (hc.symm.trans hpage)
  obtain ⟨s, -, hs, hruns, hmem, hbuddy, hvma, -⟩ := ht.enter
  refine ⟨lay, s, l, hs, hruns, ⟨?_, by rw [hvma]; exact hl.back, by rw [hvma]; exact hl.owner⟩⟩
  rw [hmem]
  exact hl.toNodeList.mono hvma fun f _ hne => by rwa [KState.ref, hbuddy]

/-- The two headers of the board's ELF file: `VMA_init` returns. -/
theorem vmaInit_faithful_board : ∃ s t, s.Pages board ∧ (vmaInit board (framePtr 0x81000)).run s = .ok () t ∧
    ((headers board s.mem).filter fun h => h.p_type = PT_LOAD).length = 2 ∧
    ∃ p l, Doubly board t 0x81000 (p :: l) ∧ StackArea (t.vma p) ∧
      List.Forall₂ (fun h q => SegmentArea h (t.vma q))
        ((headers board s.mem).filter fun h => h.p_type = PT_LOAD).reverse l := by
  obtain ⟨b, -, hres⟩ := buddyInit_spec board.fits
  have huse := hres.inUse_le
  rw [reservedPages_board] at huse
  have hpages : (boardStart b).Pages board := .init hres
  have hlen : boardElf.length = 176 := rfl
  have hzero : entry boardMem 0x81000 22 = 0 := by
    rw [boardMem_eq]
    exact entry_elfMem (by rw [hlen]; decide) (by decide)
  have htwo : ((headers board boardMem).filter fun h => h.p_type = PT_LOAD).length = 2 := by
    have hlist := elfSegments_board
    rw [elfSegments, segments_eq] at hlist
    have hlength := congrArg List.length hlist
    rw [List.length_cons, List.length_map, List.length_reverse] at hlength
    exact Nat.succ.inj hlength
  have hends := vmaInit_faithful hpages ⟨by decide, by decide⟩ (by decide) hzero elfInside_board
  have hreturns : Ends (vmaInit board (framePtr 0x81000)) (boardStart b) _ fun _ _ => False :=
    hends.mono (fun _ _ h => h) fun e t he => by
      have hshort := he.2.2
      have hbuddy : (boardStart b).buddy.inUse = b.inUse := rfl
      rw [boardStart_mem, htwo, hbuddy, show board.order = 15 from rfl] at hshort
      omega
  obtain ⟨_, t, hrun, hlist⟩ := hreturns.returns
  exact ⟨boardStart b, t, hpages, hrun, htwo, hlist⟩

end Board

end ZjuOs
