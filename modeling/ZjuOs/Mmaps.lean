import ZjuOs.UserMap

/-! `do_mmap`: a new node at the head of a list of areas. -/
namespace ZjuOs
open Memory Exec Radix

/-- Only the back pointer of a node may have changed. -/
def SameArea (a b : VmArea) : Prop := ∃ p, b = { a with vm_prev := p }

/-- The area `a` is the new head, at page `g`, of the list whose head is word `TASK_MM` of frame `c`. -/
structure Mmapped (img : Image) (s t : KState) (c g : Nat) (a : VmArea) : Prop where
  ram : img.Ram g
  above : img.firstFree ≤ g
  free : s.ref g = 0
  taken : t.ref g = 1
  others : ∀ f, img.Ram f → f ≠ g → t.ref f = s.ref f
  pages : t.Pages img
  mem : t.mem = sd 8 s.mem (c * 4096 + TASK_MM) (framePtr g)
  task : t.task = s.task
  tasksNumber : t.tasksNumber = s.tasksNumber
  current : t.current = s.current
  idle : t.idle = s.idle
  satp : t.satp = s.satp
  trace : t.trace = s.trace
  area : t.vma (framePtr g) = a
  next : a.vm_next = ld 8 s.mem (c * 4096 + TASK_MM)
  rest : ∀ p, p ≠ framePtr g → SameArea (s.vma p) (t.vma p)

/-- The area that `do_mmap` enters. -/
def mmapArea (mm addr len vm_pgoff vm_filesz flags next : Nat) : VmArea :=
  { vm_mm := mm, vm_start := addr, vm_end := (addr + len) % 2 ^ 64, vm_next := next, vm_prev := 0
    vm_flags := flags, vm_pgoff, vm_filesz }

/-- The area `a` is entered at `p`, before the node `next`. -/
@[simps -fullyApplied] def KState.link (s : KState) (p next : Nat) (a : VmArea) : KState :=
  { s with
    vma := Function.update
      (if next = 0 then s.vma else Function.update s.vma next { s.vma next with vm_prev := p }) p a }

section DoMmap
variable {img : Image} {lay lay' : Layout} {s t : KState} {c g head : Nat} {a : VmArea} {l : List Nat}

theorem SameArea.refl (a : VmArea) : SameArea a a := ⟨a.vm_prev, rfl⟩

/-- `do_mmap` with the nodes that it writes. -/
theorem doMmap_link (h : s.Pages img) (hc : img.Ram c) {addr len pgoff filesz flags : Nat} :
    Ends (doMmap img (framePtr c + TASK_MM) addr len pgoff filesz flags) s
      (fun v t => v = addr ∧ ∃ g a, a = mmapArea (framePtr c + TASK_MM) addr len pgoff filesz flags
        (ld 8 s.mem (c * 4096 + TASK_MM)) ∧ Mmapped img s t c g a ∧
        t.vma = (s.link (framePtr g) (ld 8 s.mem (c * 4096 + TASK_MM)) a).vma)
      fun e t => e = .null ∧ t = s ∧ OutOfPages img s := by
  rw [doMmap]
  refine ends_bind.mpr ((allocPage_spec h).mono ?_ fun _ _ hno => hno.elim)
  rintro p u (⟨rfl, rfl, hfull⟩ | ⟨g, rfl, ht⟩)
  · refine ends_bind.mpr (ends_notNull.mpr ?_)
    rw [if_pos rfl]
    exact ⟨rfl, rfl, hfull⟩
  · refine ends_bind.mpr (ends_notNull.mpr ?_)
    rw [if_neg (framePtr_ne_zero g)]
    refine ends_bind.mpr ((ends_loadWord hc (by decide)).mpr (ends_bind.mpr (ends_modify.mpr ?_)))
    change Ends _ (u.link (framePtr g) (ld 8 u.mem (c * 4096 + TASK_MM))
      (mmapArea (framePtr c + TASK_MM) addr len pgoff filesz flags (ld 8 u.mem (c * 4096 + TASK_MM)))) _ _
    have hword : ld 8 u.mem (c * 4096 + TASK_MM) = ld 8 s.mem (c * 4096 + TASK_MM) := by rw [ht.mem]
    rw [hword]
    generalize hnext : ld 8 s.mem (c * 4096 + TASK_MM) = w
    have hanext : (mmapArea (framePtr c + TASK_MM) addr len pgoff filesz flags w).vm_next = w := rfl
    generalize mmapArea (framePtr c + TASK_MM) addr len pgoff filesz flags w = a at hanext ⊢
    refine ends_bind.mpr ((ends_storeWord hc (by decide)).mpr (ends_pure.mpr ⟨rfl, g, a, rfl, ?_, ?_⟩))
    rotate_left
    · rw [KState.withMem_vma, KState.link_vma, KState.link_vma, ht.tasks.vma]
    constructor
    case ram => exact ht.ram
    case above => exact ht.above
    case free => exact ht.free
    case taken => exact ht.taken
    case others => exact ht.others
    case pages => exact ht.pages
    case mem => rw [KState.withMem_mem, KState.link_mem, ht.mem]
    case task => exact ht.tasks.task
    case tasksNumber => exact ht.tasks.tasksNumber
    case current => exact ht.tasks.current
    case idle => exact ht.tasks.idle
    case satp => exact ht.tasks.satp
    case trace => exact ht.trace
    case area => rw [KState.withMem_vma, KState.link_vma, Function.update_self]
    case next => rw [hanext, hnext]
    case rest =>
      intro p hp
      rw [KState.withMem_vma, KState.link_vma, Function.update_of_ne hp, ht.tasks.vma]
      by_cases hw : w = 0
      · rw [if_pos hw]
        exact .refl _
      · rw [if_neg hw]
        by_cases hpw : p = w
        · rw [hpw, Function.update_self]
          exact ⟨framePtr g, rfl⟩
        · rw [Function.update_of_ne hpw]
          exact .refl _

theorem doMmap_spec (h : s.Pages img) (hc : img.Ram c) {addr len pgoff filesz flags : Nat} :
    Ends (doMmap img (framePtr c + TASK_MM) addr len pgoff filesz flags) s
      (fun v t => v = addr ∧ ∃ g, Mmapped img s t c g (mmapArea (framePtr c + TASK_MM) addr len pgoff filesz flags
        (ld 8 s.mem (c * 4096 + TASK_MM))))
      fun e t => e = .null ∧ t = s ∧ OutOfPages img s := by
  refine (doMmap_link h hc).mono ?_ fun _ _ he => he
  rintro v t ⟨hv, g, _, rfl, hm, -⟩
  exact ⟨hv, g, hm⟩

/-- The nodes of a list that was there keep their order. -/
theorem Mmapped.chain (hm : Mmapped img s t c g a) {head : Nat} {l : List Nat}
    (hl : Chain (fun p => (s.vma p).vm_next) head l) (hg : framePtr g ∉ l) :
    Chain (fun p => (t.vma p).vm_next) head l := by
  induction l generalizing head with
  | nil => exact hl
  | cons q l ih =>
      obtain ⟨rfl, hne, hrest⟩ := hl
      rw [List.mem_cons, not_or] at hg
      obtain ⟨p, hp⟩ := hm.rest head (Ne.symm hg.1)
      refine ⟨rfl, hne, ?_⟩
      have hnext : (t.vma head).vm_next = (s.vma head).vm_next := by rw [hp]
      change Chain _ (t.vma head).vm_next l
      rw [hnext]
      exact ih hrest hg.2

theorem NodeList.not_mem (h : NodeList img s head l) (hg : s.ref g = 0) : framePtr g ∉ l := by
  intro hmem
  obtain ⟨f, hf, -, href⟩ := h.node _ hmem
  exact href (framePtr_inj hf ▸ hg)

theorem Mmapped.live (hm : Mmapped img s t c g a) {f : Nat} (hf : img.Ram f) (href : s.ref f ≠ 0) :
    t.ref f = s.ref f := by
  refine hm.others f hf ?_
  rintro rfl
  exact href hm.free

theorem Mmapped.sparing (hm : Mmapped img s t c g a) (hc : s.ref c ≠ 0) : Sparing img s t := by
  refine ⟨fun f hf h0 => ?_, fun page m he => .inl (hm.trace ▸ he)⟩
  have hfg : f ≠ g := by
    rintro rfl
    rw [hm.taken] at h0
    cases h0
  have hfree : s.ref f = 0 := by rw [← hm.others f hf hfg, h0]
  have hfc : f ≠ c := by
    rintro rfl
    exact hc hfree
  rw [hm.mem]
  exact ⟨hfree, sameFrame_sd fun o ho => by simp only [TASK_MM]; omega⟩

/-- A list that was there is still a list. -/
theorem Mmapped.nodeList (hm : Mmapped img s t c g a) (h : NodeList img s head l) : NodeList img t head l where
  chain := hm.chain h.chain (h.not_mem hm.free)
  nodup := h.nodup
  node := fun p hp => by
    obtain ⟨f, he, hram, href⟩ := h.node p hp
    exact ⟨f, he, hram, by rw [hm.live hram href]; exact href⟩

/-- The list of frame `c` has a new head. -/
theorem Mmapped.cons (hm : Mmapped img s t c g a) (h : NodeList img s (ld 8 s.mem (c * 4096 + TASK_MM)) l) :
    NodeList img t (ld 8 t.mem (c * 4096 + TASK_MM)) (framePtr g :: l) := by
  have hhead : ld 8 t.mem (c * 4096 + TASK_MM) = framePtr g := by
    have hlt := framePtr_lt hm.ram (o := 0) (by omega)
    rw [Nat.add_zero] at hlt
    rw [hm.mem, ld_sd_self]
    exact Nat.mod_eq_of_lt hlt
  rw [hhead]
  constructor
  · refine ⟨rfl, framePtr_ne_zero g, ?_⟩
    change Chain _ (t.vma (framePtr g)).vm_next l
    rw [hm.area, hm.next]
    exact hm.chain h.chain (h.not_mem hm.free)
  · exact List.nodup_cons.mpr ⟨h.not_mem hm.free, h.nodup⟩
  · intro p hp
    rcases List.mem_cons.mp hp with rfl | hp
    · exact ⟨g, rfl, hm.ram, by rw [hm.taken]; exact Nat.one_ne_zero⟩
    · exact (hm.nodeList h).node p hp

/-- The new head changes one word outside the tables. -/
theorem Mmapped.keepsTables (hm : Mmapped img s t c g a) (h : Paging img lay s) (hc : lay.role c = .task) :
    KeepsTables img lay s t.mem := by
  have habove := (h.held c (by rw [hc]; exact Role.noConfusion)).2.1
  have hframe : ∀ f, f ≠ c → SameFrame t.mem s.mem f := fun f hf => by
    rw [hm.mem]
    exact sameFrame_sd fun o ho => by simp only [TASK_MM]; omega
  constructor
  case table =>
    intro f r p hf
    refine hframe f ?_
    rintro rfl
    rw [hc] at hf
    cases hf
  case task =>
    intro f _
    by_cases hfc : f = c
    · rw [hm.mem, hfc, ld_sd_of_disjoint (by simp only [TASK_MM, TASK_PGD]; omega)]
    · exact (hframe f hfc).ld (o := TASK_PGD) (by decide)
  case image =>
    intro f hf
    exact hframe f (by omega)

/-- Nothing the invariant speaks of is changed. -/
theorem Paging.of_eq (h : Paging img lay s) (hp : t.Pages img) (href : ∀ f, img.Ram f → s.ref f ≠ 0 → t.ref f ≠ 0)
    (hmem : t.mem = s.mem) (htask : t.task = s.task) : Paging img lay t where
  pages := hp
  held := fun f hf => by
    obtain ⟨hram, habove, hne⟩ := h.held f hf
    exact ⟨hram, habove, href f hram hne⟩
  owned := by rw [hmem]; exact h.owned
  pointer := by rw [hmem]; exact h.pointer
  leaf := by rw [hmem]; exact h.leaf
  task := fun i h1 hi hne => by
    rw [htask] at hne
    have ok := h.task i h1 hi hne
    exact { ptr := by rw [htask]; exact ok.ptr, page := ok.page, pgd := by rw [hmem]; exact ok.pgd, root := ok.root }
  apart := by rw [htask]; exact h.apart
  swapper := by rw [hmem]; exact h.swapper

theorem Mmapped.paging (hm : Mmapped img s t c g a) (h : Paging img lay s) (hc : lay.role c = .task) :
    Paging img lay t :=
  (h.withMem (hm.keepsTables h hc)).of_eq hm.pages (fun f hf href => by rw [hm.live hf href]; exact href) rfl hm.task

end DoMmap

end ZjuOs
