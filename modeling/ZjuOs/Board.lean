import ZjuOs.Progress

/-!
A machine with the memory of `PHY_SIZE`, and an ELF file whose two loadable segments share the page at
`0x1000`: concrete runs on it.
-/
namespace ZjuOs
open Memory Exec Radix

/-- The kernel at its load address, with the ramdisk behind its data. -/
def board : Image where
  order := 15
  stext := VM_START + 0x200000
  etext := VM_START + 0x206000
  srodata := VM_START + 0x206000
  erodata := VM_START + 0x207000
  sdata := VM_START + 0x207000
  sramdisk := VM_START + 0x209000
  eramdisk := VM_START + 0x20a000
  swapperPgDir := VM_START + 0x20a000
  dummy := VM_START + 0x200100
  retFromFork := VM_START + 0x200080
  ekernel := VM_START + 0x20b000
  order_le := by decide
  start := by decide
  room := by decide
  ekernel_le := by decide
  swapper_start := by decide
  swapper_end := by decide
  swapper_aligned := by decide

section Elf

/-- The `n` little-endian bytes of `v`. -/
def bytesOf : Nat → Nat → List UInt8
  | 0, _ => []
  | n + 1, v => UInt8.ofNat v :: bytesOf n (v / 256)

def phdrBytes (p : Elf64Phdr) : List UInt8 :=
  bytesOf 4 p.p_type ++ bytesOf 4 p.p_flags ++ bytesOf 8 p.p_offset ++ bytesOf 8 p.p_vaddr ++ bytesOf 8 0 ++
    bytesOf 8 p.p_filesz ++ bytesOf 8 p.p_memsz ++ bytesOf 8 PGSIZE

/-- An ELF file with its program headers behind the header. -/
def elfBytes (entry : Nat) (ps : List Elf64Phdr) : List UInt8 :=
  List.replicate 24 0 ++ bytesOf 8 entry ++ bytesOf 8 64 ++ List.replicate 16 0 ++ bytesOf 2 ps.length ++
    List.replicate 6 0 ++ ps.flatMap phdrBytes

/-- Readable and writable bytes without contents in the file. -/
def bssPhdr (start len : Nat) : Elf64Phdr :=
  { p_type := PT_LOAD, p_flags := 6, p_offset := 0, p_vaddr := start, p_filesz := 0, p_memsz := len }

def boardElf : List UInt8 := elfBytes 0x1000 [bssPhdr 0x1000 0x800, bssPhdr 0x1800 0x800]

/-- Memory that is zero apart from an ELF file in the ramdisk. -/
def elfMem (elf : List UInt8) : Mem := fun x =>
  if VA2PA board.sramdisk ≤ x then elf.getD (x - VA2PA board.sramdisk) 0 else 0

/-- Memory that is zero apart from the ELF file. -/
def boardMem : Mem := fun x => if VA2PA board.sramdisk ≤ x then boardElf.getD (x - VA2PA board.sramdisk) 0 else 0

/-- The areas of the program, in list order. -/
def boardSegments : List Segment := [stackSegment, ⟨0x1800, 0x800, 0, 0, 6⟩, ⟨0x1000, 0x800, 0, 0, 6⟩]

theorem elfSegments_board : elfSegments board boardMem = boardSegments := rfl

theorem phnum_board : phnum board boardMem = 2 := by decide

theorem phoff_board : ld 8 boardMem (VA2PA board.sramdisk + 32) = 64 := by decide

theorem elfInside_board : ElfInside board boardMem := by
  have hnum : ld 2 boardMem (VA2PA board.sramdisk + 56) = 2 := phnum_board
  rw [ElfInside, phoff_board, hnum]
  exact ⟨by constructor <;> decide, by constructor <;> decide⟩

theorem elfMem_zero {elf : List UInt8} (hlen : elf.length ≤ PGSIZE) {x : Nat} (h : 0x8020a000 ≤ x) : elfMem elf x = 0 := by
  have hpa : VA2PA board.sramdisk = 0x80209000 := by decide
  have hle : elf.length ≤ x - 0x80209000 := by
    rw [PGSIZE] at hlen
    omega
  rw [elfMem, hpa, if_pos (Nat.le_trans (Nat.le_of_ble_eq_true rfl) h), List.getD_eq_getElem?_getD, List.getElem?_eq_none hle]
  rfl

theorem entry_elfMem {elf : List UInt8} (hlen : elf.length ≤ PGSIZE) {f i : Nat} (hf : 0x8020a ≤ f) : entry (elfMem elf) f i = 0 :=
  ld_eq_zero fun x hlo _ => elfMem_zero hlen (by omega)

/-- What the memory of the board holds before `task_init`: an ELF file that asks for the areas `gs`, and no
valid entry in the kernel's root table or behind the kernel. -/
structure BootMem (m : Mem) (gs : List Segment) : Prop where
  inside : ElfInside board m
  segments : elfSegments board m = gs
  few : phnum board m ≤ 2
  below : ∀ g ∈ gs, (g.start + g.len) % 2 ^ 64 ≤ USER_END
  even : ∀ f i, 0x8020a ≤ f → i < 512 → entry m f i % 2 = 0

theorem BootMem.of_elf {elf : List UInt8} {gs : List Segment} (hlen : elf.length ≤ PGSIZE)
    (hoff : ld 8 (elfMem elf) (VA2PA board.sramdisk + 32) = 64) (hnum : phnum board (elfMem elf) ≤ 2)
    (hgs : elfSegments board (elfMem elf) = gs) (hbelow : ∀ g ∈ gs, (g.start + g.len) % 2 ^ 64 ≤ USER_END) :
    BootMem (elfMem elf) gs where
  inside := by
    have hcount : ld 2 (elfMem elf) (VA2PA board.sramdisk + 56) ≤ 2 := hnum
    have hend : board.sramdisk + 64 + 56 * 2 ≤ board.ekernel := by decide
    rw [ElfInside, hoff]
    exact ⟨by constructor <;> decide, by decide, by omega⟩
  segments := hgs
  few := hnum
  below := hbelow
  even := fun f i hf _ => by rw [entry_elfMem hlen hf]

theorem boardMem_eq : boardMem = elfMem boardElf := rfl

theorem bootMem_board : BootMem boardMem boardSegments where
  inside := elfInside_board
  segments := elfSegments_board
  few := phnum_board.le
  below := by decide
  even := fun f i hf _ => by
    have hlen : boardElf.length = 176 := rfl
    rw [boardMem_eq, entry_elfMem (by rw [hlen]; decide) hf]

attribute [irreducible] boardMem

end Elf

section Boot

/-- Before `task_init`, with the allocator as `buddy_init` leaves it. -/
def boardStart (b : Buddy) : KState where
  mem := boardMem
  buddy := b
  satp := 0
  idle := 0
  current := 0
  task := fun _ => 0
  tasksNumber := 1
  seed := 1
  vma := fun _ => ⟨0, 0, 0, 0, 0, 0, 0, 0⟩
  trace := []

theorem boardStart_mem (b : Buddy) : (boardStart b).mem = boardMem := rfl

/-- The same with other memory. -/
def boardWith (m : Mem) (b : Buddy) : KState := (boardStart b).withMem m

theorem boardWith_mem (m : Mem) (b : Buddy) : (boardWith m b).mem = m := rfl

theorem Reserved.inUse_le {k r : Nat} {b : Buddy} (hb : Reserved k r b) : b.inUse ≤ r := by
  have hinv := AllocInv.init hb
  refine (Finset.card_le_card fun p hp => ?_).trans (Finset.card_range r).le
  have hne := (Finset.mem_filter.mp hp).2
  have hcount : b.refCnt p = expectedRefs k r (fun _ => none) p := hinv.refCnt p
  rw [hcount, expectedRefs] at hne
  dsimp only at hne
  by_cases hlt : p < r ∧ p < 2 ^ k
  · exact Finset.mem_range.mpr hlt.1
  · rw [if_neg hlt] at hne
    exact absurd rfl hne

theorem reservedPages_board : reservedPages board.order board.ekernel = 715 := by decide

variable {m : Mem} {gs : List Segment} {b : Buddy} {lay : Layout} {n : Nat}

theorem BootMem.fresh (h : BootMem m gs) (hres : Reserved board.order (reservedPages board.order board.ekernel) b) :
    Fresh board (boardWith m b) := fun f hf h0 i hi => by
  have hinv := AllocInv.init hres
  have hcount : b.refCnt (f - 0x80000) = _ := hinv.refCnt (f - 0x80000)
  have hfree : (boardWith m b).ref f = b.refCnt (f - 0x80000) := rfl
  rw [hfree, hcount, expectedRefs] at h0
  have hr := reservedPages_board
  have h1 := hf.1
  have h2 := hf.2
  have habove : ¬ (f - 0x80000 < reservedPages board.order board.ekernel ∧ f - 0x80000 < 2 ^ board.order) := by
    intro hlt
    simp [hlt] at h0
  have hlow : 0x8020a ≤ f := by
    rw [hr, show board.order = 15 from rfl] at habove
    rw [show board.order = 15 from rfl] at h2
    omega
  rw [boardWith_mem]
  exact h.even f i hlow hi

theorem boardStart_fresh (hres : Reserved board.order (reservedPages board.order board.ekernel) b) :
    Fresh board (boardStart b) := bootMem_board.fresh hres

/-- Task 1 has the areas `gs` of the ELF file and has not run yet; the free frames are as in `m`. -/
structure Loaded (m : Mem) (gs : List Segment) (lay : Layout) (s : KState) (n : Nat) : Prop where
  reach : ∀ ok : KState → Act → Prop, (∀ s j, ok s (.switch j)) → Reachable board ok s
  room : Roomy board lay s n
  live : s.Live 1
  alone : ∀ k, 1 ≤ k → (s.task k ≠ 0 ↔ k ≤ 1)
  unmapped : s.userPte = fun _ => none
  areas : ∃ l, AreaList board s (mmapOf lay s 1) l ∧ List.Forall₂ (fun g p => g.At (s.vma p)) gs l
  bytes : ∀ f, board.Ram f → s.ref f = 0 → SameFrame s.mem m f

theorem BootMem.ready (h : BootMem m gs) (hres : Reserved board.order (reservedPages board.order board.ekernel) b) :
    Ready board (boardWith m b) :=
  ⟨.init hres, fun i _ => h.even _ _ (by decide) i.isLt, rfl, Nat.le_of_ble_eq_true rfl⟩

/-- The run of `task_init` on the board. -/
theorem BootMem.run (h : BootMem m gs) (hn : n ≤ 30000) :
    ∃ b lay s, Ready board (boardWith m b) ∧ (taskInit board).run (boardWith m b) = .ok () s ∧ Loaded m gs lay s n := by
  obtain ⟨b, -, hres⟩ := buddyInit_spec board.fits
  have hready := h.ready hres
  have huse := hres.inUse_le
  rw [reservedPages_board] at huse
  have hfew := h.few
  have hboot := hready.boot (n := n) (h.fresh hres) fun page m hm => by cases hm
  rw [boardWith_mem, h.segments, show (boardWith m b).tasksNumber = 1 from rfl,
    show (boardWith m b).buddy = b from rfl, show board.order = 15 from rfl] at hboot
  obtain ⟨lay, t, hrun, hbelow, hs, hroom, htask, hspare⟩ := hboot h.inside h.below (by omega)
  have hlive : t.Live 1 := ⟨le_rfl, by decide, (htask 1 le_rfl).mpr le_rfl⟩
  obtain ⟨l, hl, hareas⟩ := hs.lists 1 hlive
  rw [h.segments] at hareas
  refine ⟨b, lay, t, hready, hrun, fun ok _ => .start hready hrun hbelow, hroom, hlive, htask, funext fun x => ?_,
    ⟨l, ?_, hareas h.inside⟩, fun f hf h0 => (hspare.unused f hf h0).2⟩
  · cases hx : t.userPte x with
    | none => rfl
    | some pte => exact absurd (hs.paging.userPte_role hx) (hs.unmapped _)
  · rw [hs.paging.mmap_eq hlive]
    exact ⟨hl, hbelow 1 hlive l hl.chain⟩

/-- `task_init` on the board. -/
theorem BootMem.boot (h : BootMem m gs) (hn : n ≤ 30000) : ∃ lay s, Loaded m gs lay s n := by
  obtain ⟨_, lay, s, -, -, hs⟩ := h.run hn
  exact ⟨lay, s, hs⟩

/-- The first switch to task 1 changes neither memory nor the allocator nor the areas. -/
theorem Loaded.enter {t : KState} (ht : Loaded m gs lay t n) :
    ∃ s, Step board t (.switch 1) s ∧ Loaded m gs lay s n ∧ s.Runs 1 ∧ s.mem = t.mem ∧ s.buddy = t.buddy ∧ s.vma = t.vma ∧
      s.task = t.task := by
  obtain ⟨u, hu, hstep, hroom⟩ := ht.room.switch ht.live
  have hswitch : Step board t (.switch 1) u := .switch ht.live hu
  cases hstep with
  | stay hruns => exact ⟨_, hswitch, ht, hruns, rfl, rfl, rfl, rfl⟩
  | switch _ hcur _ hmem hbuddy htasks hvma _ =>
      have hlive : u.Live 1 := by
        rw [KState.Live, htasks]
        exact ht.live
      obtain ⟨l, hl, hareas⟩ := ht.areas
      refine ⟨u, hswitch, ⟨fun ok hok => .step (ht.reach ok hok) (hok _ _) hswitch, hroom, hlive, ?_, ?_, ⟨l, ?_, ?_⟩, ?_⟩,
        ⟨hlive, by rw [hcur, htasks]⟩, hmem, hbuddy, hvma, htasks⟩
      · rw [htasks]
        exact ht.alone
      · rw [ht.room.inv.paging.userPte_congr hroom.inv.paging htasks rfl fun r va _ _ => by rw [hmem]]
        exact ht.unmapped
      · have hword : mmapOf lay u 1 = mmapOf lay t 1 := by rw [mmapOf, mmapOf, hmem]
        rw [hword]
        exact hl.mono hvma fun f _ hne => by rwa [KState.ref, hbuddy]
      · rwa [hvma]
      · intro f hf h0
        rw [KState.ref, hbuddy] at h0
        rw [hmem]
        exact ht.bytes f hf h0

/-- Task 1 starts to run. -/
theorem BootMem.enter (h : BootMem m gs) (hn : n ≤ 30000) : ∃ lay s, Loaded m gs lay s n ∧ s.Runs 1 := by
  obtain ⟨lay, t, ht⟩ := h.boot hn
  obtain ⟨s, -, hs, hruns, -⟩ := ht.enter
  exact ⟨lay, s, hs, hruns⟩

end Boot

section Fault
variable {m : Mem} {gs : List Segment} {lay : Layout} {s : KState} {n p cause len flags : Nat} {l : List Nat}

theorem copyLength_bss {area : VmArea} {len flags : Nat} (h : Segment.At ⟨0x1000, len, 0, 0, flags⟩ area) :
    copyLength board area (copyStart board area 0x1000).1 (copyStart board area 0x1000).2 = 0 := by
  obtain ⟨hstart, -, hoff, hsz, -⟩ := h
  dsimp only at hstart hoff hsz
  rw [copyStart, copyLength, hstart, hoff, hsz]
  decide

/-- A fault on a page that is not mapped, in an area that grants it and has no data in the file there. -/
theorem Roomy.granted {va : Nat} (h : Roomy board lay s (n + 4)) (hi : s.Runs 1) (hl : AreaList board s (mmapOf lay s 1) l)
    (hsel : selected s.vma l va = some p) (hgo : refuses cause (s.vma p).vm_flags = false)
    (hleaf : leafPte s.mem (lay.root 1) va = none) (hdata : (s.vma p).vm_flags &&& 0x1 = 1 ∨
      copyLength board (s.vma p) (copyStart board (s.vma p) va).1 (copyStart board (s.vma p) va).2 = 0) :
    ∃ lay' t, (doPageFault board ⟨cause, va⟩).run s = .ok () t ∧ Resolved board lay s (lay.root 1) va (s.vma p) cause lay' t ∧
      Roomy board lay' t n := by
  obtain ⟨q, lay', t, hrun, hq, hres, hroom⟩ := h.fault ⟨cause, va⟩ (Nat.le_add_left ..) hi hl fun e t href => by
    cases href with
    | area hno _ _ =>
        have := hno p hsel
        rw [hgo] at this
        cases this
    | full _ hfull => exact hfull
    | settled old hold _ _ => rw [hleaf] at hold; cases hold
    | unreadable old hold _ _ _ _ => rw [hleaf] at hold; cases hold
    | copy q _ hq hfile hlen _ =>
        obtain rfl : p = q := Option.some.inj (hsel.symm.trans hq)
        exact (hdata.elim hfile hlen).elim
  obtain rfl : p = q := Option.some.inj (hsel.symm.trans hq)
  rw [Nat.add_sub_cancel] at hroom
  exact ⟨lay', t, hrun, hres, hroom⟩

/-- A fault at `0x1000`, in an area that has no data in the file. -/
theorem Loaded.fault (h : Loaded m gs lay s (n + 4)) (hi : s.Runs 1) (hl : AreaList board s (mmapOf lay s 1) l)
    (hsel : selected s.vma l 0x1000 = some p) (hat : Segment.At ⟨0x1000, len, 0, 0, flags⟩ (s.vma p))
    (hgo : refuses cause flags = false) :
    leafPte s.mem (lay.root 1) 0x1000 = none ∧ ∃ lay' t, (doPageFault board ⟨cause, 0x1000⟩).run s = .ok () t ∧
      Resolved board lay s (lay.root 1) 0x1000 (s.vma p) cause lay' t ∧ Roomy board lay' t n := by
  have hleaf : leafPte s.mem (lay.root 1) 0x1000 = none := by
    rw [← h.room.inv.paging.userPte_va hi.1 (.of_lt (Nat.le_of_ble_eq_true rfl)), h.unmapped]
  have hgo' : refuses cause (s.vma p).vm_flags = false := by rw [hat.2.2.2.2, hgo]
  exact ⟨hleaf, h.room.granted hi hl hsel hgo' hleaf (.inr (copyLength_bss hat))⟩

end Fault

section Run
variable {lay : Layout} {s : KState} {n g : Nat} {map : Nat × Nat → Option Nat}

/-- A run of the board that task 1 is in, with the user mappings `map`. -/
structure OnBoard (lay : Layout) (s : KState) (n : Nat) (map : Nat × Nat → Option Nat) : Prop where
  reach : Reachable board (fun _ _ => True) s
  room : Roomy board lay s n
  runs : s.Runs 1
  areas : ∃ l, AreaList board s (mmapOf lay s 1) l ∧ List.Forall₂ (fun g p => g.At (s.vma p)) boardSegments l
  mapped : s.userPte = map

/-- The three areas in list order. -/
theorem OnBoard.list (h : OnBoard lay s n map) : ∃ p₁ p₂ p₃, AreaList board s (mmapOf lay s 1) [p₁, p₂, p₃] ∧
    stackSegment.At (s.vma p₁) ∧ Segment.At ⟨0x1800, 0x800, 0, 0, 6⟩ (s.vma p₂) ∧
    Segment.At ⟨0x1000, 0x800, 0, 0, 6⟩ (s.vma p₃) := by
  obtain ⟨l, hl, hareas⟩ := h.areas
  rw [boardSegments] at hareas
  obtain _ | ⟨h₁, _ | ⟨h₂, _ | ⟨h₃, _ | _⟩⟩⟩ := hareas
  exact ⟨_, _, _, hl, h₁, h₂, h₃⟩

/-- The area at `0x1000` is the one that `find_vma` finds there, and a fork looks at its page twice. -/
theorem OnBoard.area (h : OnBoard lay s n map) : ∃ l p, AreaList board s (mmapOf lay s 1) l ∧
    List.Forall₂ (fun g p => g.At (s.vma p)) boardSegments l ∧ selected s.vma l 0x1000 = some p ∧
    Segment.At ⟨0x1000, 0x800, 0, 0, 6⟩ (s.vma p) ∧
    (l.flatMap fun p => (s.vma p).pages) = [USER_END - PGSIZE, 0x1000, 0x1000] := by
  obtain ⟨p₁, p₂, p₃, hl, h₁, h₂, h₃⟩ := h.list
  refine ⟨_, p₃, hl, .cons h₁ (.cons h₂ (.cons h₃ .nil)), ?_, h₃, ?_⟩
  · rw [selected, List.find?_cons_of_neg, List.find?_cons_of_neg, List.find?_cons_of_pos]
    · rw [VmArea.touches, h₃.1, h₃.2.1]
      decide
    · rw [VmArea.touches, h₂.1, h₂.2.1]
      decide
    · rw [VmArea.touches, h₁.1, h₁.2.1]
      decide
  · simp only [List.flatMap_cons, List.flatMap_nil, VmArea.pages, h₁.1, h₁.2.1, h₂.1, h₂.2.1, h₃.1, h₃.2.1]
    rfl

theorem OnBoard.leaf_va {va : Nat} (h : OnBoard lay s n map) (hva : UserVa va) :
    leafPte s.mem (lay.root 1) va = map (1, va / PGSIZE % 2 ^ 27) := by
  rw [← h.room.inv.paging.userPte_va h.runs.1 hva, h.mapped]

theorem OnBoard.leaf (h : OnBoard lay s n map) : leafPte s.mem (lay.root 1) 0x1000 = map (1, 1) :=
  h.leaf_va (.of_lt (Nat.le_of_ble_eq_true rfl))

theorem Loaded.onBoard {m : Mem} (h : Loaded m boardSegments lay s n) (hi : s.Runs 1) : OnBoard lay s n (fun _ => none) ∧ s.task 2 = 0 := by
  refine ⟨⟨h.reach _ fun _ _ => trivial, h.room, hi, h.areas, h.unmapped⟩, ?_⟩
  by_contra hne
  exact absurd ((h.alone 2 (by decide)).mp hne) (by decide)

/-- The state when task 1 first runs. -/
theorem board_entered (hn : n ≤ 30000) : ∃ lay s, OnBoard lay s n (fun _ => none) ∧ s.task 2 = 0 ∧
    ∀ ok : KState → Act → Prop, (∀ s j, ok s (.switch j)) → Reachable board ok s := by
  obtain ⟨lay, s, h, hruns⟩ := bootMem_board.enter hn
  obtain ⟨hon, hempty⟩ := h.onBoard hruns
  exact ⟨lay, s, hon, hempty, h.reach⟩

variable {lay' : Layout} {t : KState} {pte k va : Nat} {drop : Option Nat}

/-- The run goes on after a fault at `va`. -/
theorem OnBoard.remapped (h : OnBoard lay s n map) (hva : UserVa va) (hreach : Reachable board (fun _ _ => True) t)
    (hroom : Roomy board lay' t k) (hm : Remapped board lay lay' s t (lay.root 1) va pte drop)
    (hmany : ∀ f, drop = some f → s.ref f ≠ 1) :
    OnBoard lay' t k (Function.update map (1, va / PGSIZE % 2 ^ 27) (some pte)) := by
  have hp := h.room.inv.paging
  refine ⟨hreach, hroom, hm.tasks.runs.mpr h.runs, ?_, ?_⟩
  · obtain ⟨l, hl, hareas⟩ := h.areas
    refine ⟨l, hl.carry (hp.task_ok h.runs.1).page hm.tasks.vma hm.page (fun f hf => ?_) (fun _ => hm.live hmany), by rwa [hm.tasks.vma]⟩
    exact hm.frame f (fun r p hr => by rw [hf] at hr; cases hr) (hp.held f (by rw [hf]; exact Role.noConfusion)).2.2
  · rw [hm.userPte hp h.runs.1 hva, h.mapped]

/-- A fault of task 1 on a page that is not mapped, in an area that grants it and has no data in the file. -/
theorem OnBoard.demand (h : OnBoard lay s (n + 4) map) (hva : UserVa va) (hempty : map (1, va / PGSIZE % 2 ^ 27) = none)
    {l : List Nat} {p : Nat} (hl : AreaList board s (mmapOf lay s 1) l) (hsel : selected s.vma l va = some p) {cause : Nat}
    (hgo : refuses cause (s.vma p).vm_flags = false) (hdata : (s.vma p).vm_flags &&& 0x1 = 1 ∨
      copyLength board (s.vma p) (copyStart board (s.vma p) va).1 (copyStart board (s.vma p) va).2 = 0) :
    ∃ lay' t g, (doPageFault board ⟨cause, va⟩).run s = .ok () t ∧ Step board s (.fault ⟨cause, va⟩) t ∧
      Resolved board lay s (lay.root 1) va (s.vma p) cause lay' t ∧ t.ref g = 1 ∧ board.Ram g ∧ t.task = s.task ∧
      OnBoard lay' t n (Function.update map (1, va / PGSIZE % 2 ^ 27)
        (some (2 ^ 10 * g + (0x11 ||| ((s.vma p).vm_flags &&& 0xe))))) := by
  have hleaf := (h.leaf_va hva).trans hempty
  obtain ⟨lay', t, hrun, hres, hroom⟩ := h.room.granted h.runs hl hsel hgo hleaf hdata
  have hstep : Step board s (.fault ⟨cause, va⟩) t := .fault h.runs hrun
  cases hres with
  | demand g hnone hother hzero hdata hone hm hlog hall =>
      exact ⟨lay', t, g, hrun, hstep, .demand g hnone hother hzero hdata hone hm hlog hall, hone,
        (hm.paging.held g (by rw [hdata]; exact Role.noConfusion)).1, hm.tasks.task,
        h.remapped hva (.step h.reach trivial hstep) hroom hm fun _ hd => by cases hd⟩
  | own old _ hold _ _ _ _ _ _ => rw [hleaf] at hold; cases hold
  | copy old _ _ hold _ _ _ _ _ _ _ _ _ _ _ _ _ _ => rw [hleaf] at hold; cases hold

/-- A load at `0x1000`. -/
theorem OnBoard.loaded (h : OnBoard lay s (n + 4) map) (hempty : map (1, 1) = none) : ∃ p lay' t g,
    Segment.At ⟨0x1000, 0x800, 0, 0, 6⟩ (s.vma p) ∧ (doPageFault board ⟨LOAD_FAULT, 0x1000⟩).run s = .ok () t ∧
    Step board s (.fault ⟨LOAD_FAULT, 0x1000⟩) t ∧
    Resolved board lay s (lay.root 1) 0x1000 (s.vma p) LOAD_FAULT lay' t ∧ t.ref g = 1 ∧ board.Ram g ∧ t.task = s.task ∧
    OnBoard lay' t n (Function.update map (1, 1) (some (2 ^ 10 * g + 0x17))) := by
  obtain ⟨l, p, hl, -, hsel, hat, -⟩ := h.area
  obtain ⟨lay', t, g, hrun, hstep, hres, hone, hg, htask, hon⟩ := h.demand (.of_lt (Nat.le_of_ble_eq_true rfl)) hempty hl hsel
    (show refuses LOAD_FAULT (s.vma p).vm_flags = false by rw [hat.2.2.2.2]; rfl) (.inr (copyLength_bss hat))
  rw [hat.2.2.2.2] at hon
  exact ⟨p, lay', t, g, hat, hrun, hstep, hres, hone, hg, htask, hon⟩

/-- A load at `0x1000` is resolved. -/
theorem board_loaded (hn : n ≤ 29996) : ∃ lay s p lay' t, OnBoard lay s (n + 4) (fun _ => none) ∧ s.task 2 = 0 ∧
    (∀ ok : KState → Act → Prop, (∀ s j, ok s (.switch j)) → Reachable board ok s) ∧
    leafPte s.mem (lay.root 1) 0x1000 = none ∧ Segment.At ⟨0x1000, 0x800, 0, 0, 6⟩ (s.vma p) ∧
    (doPageFault board ⟨LOAD_FAULT, 0x1000⟩).run s = .ok () t ∧ Reachable board (fun _ _ => True) t ∧
    Resolved board lay s (lay.root 1) 0x1000 (s.vma p) LOAD_FAULT lay' t ∧ Roomy board lay' t n := by
  obtain ⟨lay, s, h, hempty, hstart⟩ := board_entered (n := n + 4) (by omega)
  obtain ⟨p, lay', t, g, hat, hrun, -, hres, -, -, -, hon⟩ := h.loaded rfl
  exact ⟨lay, s, p, lay', t, h, hempty, hstart, h.leaf, hat, hrun, hon.reach, hres, hon.room⟩

/-- The load has mapped the page. -/
theorem board_demanded (hn : n ≤ 29996) : ∃ lay s g,
    OnBoard lay s n (Function.update (fun _ => none) (1, 1) (some (2 ^ 10 * g + 0x17))) ∧ s.ref g = 1 ∧
      board.Ram g ∧ s.task 2 = 0 := by
  obtain ⟨lay, s, h, hempty, -⟩ := board_entered (n := n + 4) (by omega)
  obtain ⟨p, lay', t, g, -, -, -, -, hone, hg, htask, hon⟩ := h.loaded rfl
  exact ⟨lay', t, g, hon, hone, hg, by rw [htask, hempty]⟩

/-- The address of a trap frame at the top of the page of a task. -/
theorem topFrame {f : Nat} (hram : board.Ram f) : framePtr f + 0xee0 < 2 ^ 64 ∧ InFrame (framePtr f + 0xee0) := by
  refine ⟨framePtr_lt hram (by decide), ?_⟩
  have hbounds := hram.bounds
  have hmod : (framePtr f + 0xee0) % PGSIZE = 0xee0 := by
    simp only [framePtr, PGSIZE, PA2VA_OFFSET]
    omega
  rw [InFrame, hmod]
  decide

/-- A fork of task 1, with its trap frame at the top of its page. -/
theorem OnBoard.fork (h : OnBoard lay s (n + 8) map) : ∃ l m lay' t r, AreaList board s (mmapOf lay s 1) l ∧
    (l.flatMap fun p => (s.vma p).pages) = [USER_END - PGSIZE, 0x1000, 0x1000] ∧
    CowForked board lay s 1 l m lay' t ∧ Roomy board lay' t n ∧ Step board s (.fork r) t ∧
    List.Forall₂ (fun g p => g.At (s.vma p)) boardSegments l := by
  obtain ⟨l, p, hl, hareas, -, -, hpages⟩ := h.area
  have hlook : looked s.vma l = 3 := by rw [looked, hpages]; rfl
  obtain ⟨hregs, hframe⟩ := topFrame (h.room.inv.paging.page_ram h.runs.1)
  obtain ⟨m, lay', t, hrun, hf, hroom⟩ := h.room.fork h.runs hl hregs hframe (by rw [hlook]; omega)
  rw [hlook, Nat.add_sub_cancel] at hroom
  exact ⟨l, m, lay', t, _, hl, hpages, hf, hroom, .fork h.runs hregs hframe hrun, hareas⟩

/-- Task 1 goes on after a fork. -/
theorem OnBoard.forked (h : OnBoard lay s k map) {l : List Nat} {j c d w r m : Nat} {u v : KState}
    (hreach : Reachable board (fun _ _ => True) t) (hroom : Roomy board lay' t n) (hl : AreaList board s (mmapOf lay s 1) l)
    (hareas : List.Forall₂ (fun g p => g.At (s.vma p)) boardSegments l) (hs : Spawned board s u j c d w)
    (hk : Kept board (lay.spawn j c d) lay' u v r m) (ht : t = v.log (.fence v.mem)) : OnBoard lay' t n t.userPte := by
  have hp := h.room.inv.paging
  have hij : 1 ≠ j := by
    rintro rfl
    exact h.runs.1.2.2 hs.empty
  have hiu : u.Live 1 := hs.live.mpr (.inl h.runs.1)
  have hrole := hs.role hp (f := lay.page 1) (by rw [(hp.task_ok h.runs.1).page]; exact Role.noConfusion)
  have hpage : lay'.page 1 = lay.page 1 := by
    rw [hk.page]
    exact Function.update_of_ne hij ..
  refine ⟨hreach, hroom, ⟨?_, ?_⟩, ⟨l, ?_, ?_⟩, rfl⟩
  · rw [ht]
    exact hk.tasks.live.mpr hiu
  · rw [ht, KState.log_current, KState.log_task, hk.tasks.current, hk.tasks.task, hs.current, hs.task,
      Function.update_of_ne hij]
    exact h.runs.2
  · have hword : mmapOf lay' t 1 = mmapOf lay s 1 := by
      rw [mmapOf, mmapOf, hpage, ht, KState.log_mem, (hk.frame _ fun r p hr => ?_).ld (by decide),
        (hs.frame _ hrole.1 hrole.2.1).ld (by decide)]
      have hpagerole := (hk.paging.task_ok (hk.tasks.live.mpr hiu)).page
      rw [hpage, hr] at hpagerole
      cases hpagerole
    rw [hword]
    refine hl.mono ?_ fun f hf hne => ?_
    · rw [ht, KState.log_vma, hk.tasks.vma, hs.vma]
    · have hle := (hk.ref f hf (by rw [hs.ref f hf hne]; exact hne)).1
      rw [hs.ref f hf hne] at hle
      rw [ht]
      exact fun h0 => hne (Nat.le_zero.mp (h0 ▸ hle))
  · rwa [ht, KState.log_vma, hk.tasks.vma, hs.vma]

/-- A fork of task 1 before its pages are shared: `u` has the task `j`, whose root table is in the frame `d`. -/
structure Forking (lay : Layout) (s : KState) (j c d : Nat) (u : KState) : Prop where
  other : 1 ≠ j
  paging : Paging board (lay.spawn j c d) u
  parent : u.Live 1
  child : u.Live j
  parentRoot : (lay.spawn j c d).root 1 = lay.root 1
  childRoot : (lay.spawn j c d).root j = d
  mapped : u.userPte = s.userPte
  ref : ∀ g, board.Ram g → s.ref g ≠ 0 → u.ref g = s.ref g
  leaf : ∀ va, UserVa va → leafPte u.mem (lay.root 1) va = leafPte s.mem (lay.root 1) va

theorem OnBoard.forking (h : OnBoard lay s k map) {j c d w : Nat} {u : KState} (hs : Spawned board s u j c d w) :
    Forking lay s j c d u := by
  have hp := h.room.inv.paging
  have hij : 1 ≠ j := by
    rintro rfl
    exact h.runs.1.2.2 hs.empty
  exact ⟨hij, hs.paging hp, hs.live.mpr (.inl h.runs.1), hs.live.mpr (.inr rfl), Function.update_of_ne hij ..,
    Function.update_self .., hs.userPte hp, hs.ref, fun va hva => hs.leaves hp (hp.task_ok h.runs.1).root hva⟩

/-- A fork of task 1 when `task[2]` is empty. -/
theorem OnBoard.spawns (h : OnBoard lay s (n + 8) map) (hempty : s.task 2 = 0) : ∃ l lay' j c d u v r,
    (l.flatMap fun p => (s.vma p).pages) = [USER_END - PGSIZE, 0x1000, 0x1000] ∧ Forking lay s j c d u ∧
    Shares board (lay.root 1) d (lay.spawn j c d) u (visits s.vma s.mem (lay.root 1) l) lay' v ∧
    Step board s (.fork r) (v.log (.fence v.mem)) ∧ OnBoard lay' (v.log (.fence v.mem)) n v.userPte := by
  obtain ⟨l, m, lay', t, r, hl, hpages, hf, hroom, hstep, hareas⟩ := h.fork
  cases hf with
  | full _ hfull _ _ => exact absurd hempty (hfull 2 (by decide))
  | child j c d u v _ hs hsh ht =>
      have hfork := h.forking hs
      have hk := hsh.kept hfork.paging (hfork.parentRoot ▸ (hfork.paging.task_ok hfork.parent).root)
      have hon := h.forked (.step h.reach trivial hstep) hroom hl hareas hs hk ht
      rw [ht] at hstep hon
      exact ⟨l, lay', j, c, d, u, v, r, hpages, hfork, hsh, hstep, hon⟩

/-- One visit of the page of the frame `g`, which was writable or has been shared before. -/
theorem Shared.visit {img : Image} {lay lay' : Layout} {s t : KState} {i j r d va pte g flags : Nat}
    (hm : Shared img lay lay' s t r d va pte) (hp : Paging img lay s) (hi : s.Live i) (hj : s.Live j)
    (hr : lay.root i = r) (hd : lay.root j = d) (hva : UserVa va) (hg : img.Ram g)
    (hleaf : leafPte s.mem r va = some (2 ^ 10 * g + flags)) (hflags : flags = 0x17 ∨ flags = 0x13) :
    t.userPte = Function.update (Function.update s.userPte (i, va / PGSIZE % 2 ^ 27) (some (2 ^ 10 * g + 0x13)))
        (j, va / PGSIZE % 2 ^ 27) (some (2 ^ 10 * g + 0x13)) ∧
      (s.ref g ≠ 0 → t.ref g = s.ref g + 1) ∧ leafPte t.mem r va = some (2 ^ 10 * g + 0x13) := by
  subst hr hd
  obtain rfl : pte = 2 ^ 10 * g + flags := Option.some.inj (hm.old.symm.trans hleaf)
  have hb := hg.bounds
  have hlow : flags < 2 ^ 10 := by omega
  have hclear : clearW (2 ^ 10 * g + flags) = 2 ^ 10 * g + 0x13 := by
    rw [clearW_eq (by omega), pteFrame_mk hlow, pteFlags_mk hlow]
    obtain rfl | rfl := hflags <;> rfl
  refine ⟨?_, fun hne => ?_, ?_⟩
  · rw [hm.userPte hp hi hj hva, hclear]
  · rw [hm.ref g hg hne, pteFrame_mk hlow, if_pos rfl]
  · rw [hm.parent va rfl, hclear]

/-- A fork behind a load at `0x1000`: the page has two mappings, and its count is 3. -/
theorem OnBoard.loadedFork {g : Nat}
    (h : OnBoard lay s (n + 8) (Function.update (fun _ => none) (1, 1) (some (2 ^ 10 * g + 0x17)))) (hone : s.ref g = 1)
    (hg : board.Ram g) (hempty : s.task 2 = 0) : ∃ lay' t j r, j ≠ 1 ∧ Step board s (.fork r) t ∧
      OnBoard lay' t n (Function.update (Function.update (fun _ => none) (1, 1) (some (2 ^ 10 * g + 0x13))) (j, 1)
        (some (2 ^ 10 * g + 0x13))) ∧ t.ref g = 3 := by
  obtain ⟨l, lay', j, c, d, u, v, r, hpages, hf, hsh, hstep, hon⟩ := h.spawns hempty
  have huser : UserVa 0x1000 := .of_lt (Nat.le_of_ble_eq_true rfl)
  have hvisits : visits s.vma s.mem (lay.root 1) l = [0x1000, 0x1000] := by
    have htop : leafPte s.mem (lay.root 1) (USER_END - PGSIZE) = none :=
      (h.leaf_va (.of_lt (Nat.le_of_ble_eq_true rfl))).trans (Function.update_of_ne (by decide) ..)
    rw [visits, hpages, List.filter_cons_of_neg (by rw [htop]; decide), List.filter_cons_of_pos (by rw [h.leaf]; rfl),
      List.filter_cons_of_pos (by rw [h.leaf]; rfl), List.filter_nil]
  rw [hvisits] at hsh
  obtain ⟨lay₁, t₁, pte₁, hsh₁, h₂⟩ := Shares.snoc_inv [0x1000] hsh
  obtain ⟨lay₀, t₀, pte₀, hsh₀, h₁⟩ := Shares.snoc_inv [] hsh₁
  obtain ⟨rfl, rfl⟩ := hsh₀.nil_inv
  have hleaf : leafPte t₀.mem (lay.root 1) 0x1000 = some (2 ^ 10 * g + 0x17) := by
    rw [hf.leaf _ huser, h.leaf, Function.update_self]
  obtain ⟨hmap₁, href₁, hleaf₁⟩ := h₁.visit hf.paging hf.parent hf.child hf.parentRoot hf.childRoot huser hg hleaf (.inl rfl)
  obtain ⟨hmap₂, href₂, -⟩ := h₂.visit h₁.paging (h₁.tasks.live.mpr hf.parent) (h₁.tasks.live.mpr hf.child)
    (by rw [h₁.root, hf.parentRoot]) (by rw [h₁.root, hf.childRoot]) huser hg hleaf₁ (.inr rfl)
  have hu : t₀.ref g = 1 := by rw [hf.ref g hg (by omega), hone]
  refine ⟨lay', _, j, r, hf.other.symm, hstep, { hon with mapped := ?_ }, ?_⟩
  · have hlog : (v.log (.fence v.mem)).userPte = v.userPte := rfl
    rw [hlog, hmap₂, hmap₁, hf.mapped, h.mapped, show 0x1000 / PGSIZE % 2 ^ 27 = 1 from rfl]
    funext x
    by_cases hj : x = (j, 1)
    · rw [hj, Function.update_self, Function.update_self]
    · by_cases h1 : x = (1, 1)
      · have hne : ((1, 1) : Nat × Nat) ≠ (j, 1) := h1 ▸ hj
        rw [h1, Function.update_of_ne hne, Function.update_self, Function.update_of_ne hne, Function.update_self]
      · simp only [Function.update_of_ne hj, Function.update_of_ne h1]
  · have hlog : (v.log (.fence v.mem)).ref g = v.ref g := rfl
    have htwo : t₁.ref g = 2 := by rw [href₁ (by omega), hu]
    rw [hlog, href₂ (by omega), htwo]

theorem board_forked (hn : n ≤ 29988) : ∃ lay s g j, j ≠ 1 ∧
    OnBoard lay s n (Function.update (Function.update (fun _ => none) (1, 1) (some (2 ^ 10 * g + 0x13))) (j, 1)
      (some (2 ^ 10 * g + 0x13))) ∧ s.ref g = 3 := by
  obtain ⟨lay, s, g, h, hone, hg, hempty⟩ := board_demanded (n := n + 8) (by omega)
  obtain ⟨lay', t, j, -, hj, -, hon, hthree⟩ := h.loadedFork hone hg hempty
  exact ⟨lay', t, g, j, hj, hon, hthree⟩

/-- The stack page of task 1, which is in one area alone, is mapped by a store and then shared by a fork. -/
theorem board_stack_forked (hn : n ≤ 29988) : ∃ lay s lay₁ t r lay₂ u g j, j ≠ 1 ∧ OnBoard lay s (n + 12) (fun _ => none) ∧
    (∀ ok : KState → Act → Prop, (∀ s j, ok s (.switch j)) → Reachable board ok s) ∧
    Step board s (.fault ⟨STORE_FAULT, USER_END - PGSIZE⟩) t ∧
    OnBoard lay₁ t (n + 8) (Function.update (fun _ => none) (1, 2 ^ 26 - 1) (some (2 ^ 10 * g + 0x17))) ∧
    Step board t (.fork r) u ∧
    OnBoard lay₂ u n (Function.update (Function.update (fun _ => none) (1, 2 ^ 26 - 1) (some (2 ^ 10 * g + 0x13)))
      (j, 2 ^ 26 - 1) (some (2 ^ 10 * g + 0x13))) ∧ u.ref g = 2 ∧ board.Ram g := by
  obtain ⟨lay, s, h, hempty, hstart⟩ := board_entered (n := n + 12) (by omega)
  obtain ⟨p₁, p₂, p₃, hl, hat, -⟩ := h.list
  have huser : UserVa (USER_END - PGSIZE) := .of_lt (Nat.le_of_ble_eq_true rfl)
  have hsel : selected s.vma [p₁, p₂, p₃] (USER_END - PGSIZE) = some p₁ := by
    rw [selected, List.find?_cons_of_pos]
    rw [VmArea.touches, hat.1, hat.2.1]
    decide
  obtain ⟨lay₁, t, g, -, hstep, -, hone, hg, htask, hon⟩ := h.demand huser rfl hl hsel
    (show refuses STORE_FAULT (s.vma p₁).vm_flags = false by rw [hat.2.2.2.2]; rfl) (.inl (by rw [hat.2.2.2.2]; rfl))
  rw [hat.2.2.2.2] at hon
  obtain ⟨l, lay₂, j, c, d, w, v, r, hpages, hf, hsh, hfork, hon'⟩ := hon.spawns (by rw [htask, hempty])
  have hleaf : leafPte t.mem (lay₁.root 1) (USER_END - PGSIZE) = some (2 ^ 10 * g + 0x17) :=
    (hon.leaf_va huser).trans (Function.update_self ..)
  have hvisits : visits t.vma t.mem (lay₁.root 1) l = [USER_END - PGSIZE] := by
    have hlow : leafPte t.mem (lay₁.root 1) 0x1000 = none := hon.leaf.trans (Function.update_of_ne (by decide) ..)
    rw [visits, hpages, List.filter_cons_of_pos (by rw [hleaf]; rfl), List.filter_cons_of_neg (by rw [hlow]; decide),
      List.filter_cons_of_neg (by rw [hlow]; decide), List.filter_nil]
  rw [hvisits] at hsh
  obtain ⟨lay₀, t₀, pte₀, hsh₀, hm⟩ := Shares.snoc_inv [] hsh
  obtain ⟨rfl, rfl⟩ := hsh₀.nil_inv
  obtain ⟨hmap, href, -⟩ := hm.visit hf.paging hf.parent hf.child hf.parentRoot hf.childRoot huser hg
    ((hf.leaf _ huser).trans hleaf) (.inl rfl)
  refine ⟨lay, s, lay₁, t, r, lay₂, _, g, j, hf.other.symm, h, hstart, hstep, hon, hfork, { hon' with mapped := ?_ }, ?_, hg⟩
  · have hlog : (v.log (.fence v.mem)).userPte = v.userPte := rfl
    rw [hlog, hmap, hf.mapped, hon.mapped, Function.update_idem, show (USER_END - PGSIZE) / PGSIZE % 2 ^ 27 = 2 ^ 26 - 1 from rfl]
  · have hlog : (v.log (.fence v.mem)).ref g = v.ref g := rfl
    rw [hlog, href (by rw [hf.ref g hg (by omega)]; omega), hf.ref g hg (by omega), hone]

/-- Forks fill `task[]`. -/
theorem OnBoard.fill {m : Nat} (h : OnBoard lay s (n + 8 * m) map) (hm : NR_TASKS ≤ s.used + m) :
    ∃ lay t, OnBoard lay t n t.userPte ∧ ∀ j, j < NR_TASKS → t.task j ≠ 0 := by
  induction m generalizing lay s map with
  | zero =>
      refine ⟨lay, s, { h with mapped := rfl }, fun j hj => ?_⟩
      have hcard : ((Finset.range NR_TASKS).filter fun i => s.task i ≠ 0) = Finset.range NR_TASKS := by
        refine Finset.eq_of_subset_of_card_le (Finset.filter_subset _ _) ?_
        rw [Finset.card_range]
        exact hm
      have hmem := Finset.mem_range.mpr hj
      rw [← hcard, Finset.mem_filter] at hmem
      exact hmem.2
  | succ m ih =>
      obtain ⟨l, x, lay', t, r, hl, -, hf, hroom, hstep, hareas⟩ := h.fork
      have hreach : Reachable board (fun _ _ => True) t := .step h.reach trivial hstep
      cases hf with
      | full _ hfull _ _ => exact ⟨lay, s, ⟨h.reach, h.room.mono (by omega), h.runs, h.areas, rfl⟩, hfull⟩
      | child j c d u v _ hs hsh ht =>
          have hp := h.room.inv.paging
          have hij : 1 ≠ j := by
            rintro rfl
            exact h.runs.1.2.2 hs.empty
          have hpu := hs.paging hp
          have eri : (lay.spawn j c d).root 1 = lay.root 1 := Function.update_of_ne hij ..
          have hk := hsh.kept hpu (eri ▸ (hpu.task_ok (hs.live.mpr (.inl h.runs.1))).root)
          have hon := h.forked hreach hroom hl hareas hs hk ht
          refine ih hon ?_
          have hused : t.used = s.used + 1 := used_update hs.lt hs.empty (framePtr_ne_zero c) (by
            rw [ht, KState.log_task, hk.tasks.task, hs.task])
          omega

/-- Task 1 has forked until `task[]` was full. -/
theorem board_full (hn : n ≤ 29936) : ∃ lay s, OnBoard lay s n s.userPte ∧ ∀ j, j < NR_TASKS → s.task j ≠ 0 := by
  obtain ⟨lay, s, h, -⟩ := board_entered (n := n + 8 * 8) (by omega)
  have hused := used_pos h.room.inv.idle_ne
  exact h.fill (Nat.add_le_add_right hused 8)

/-- A store of task 1 at `0x1000`, whose page is shared: the page is mapped to a frame of its own. -/
theorem OnBoard.storeFault {g : Nat} (h : OnBoard lay s (n + 4) map) (hmap : map (1, 1) = some (2 ^ 10 * g + 0x13))
    (hmany : 1 < s.ref g) : ∃ p lay' t g', (doPageFault board ⟨STORE_FAULT, 0x1000⟩).run s = .ok () t ∧
      Step board s (.fault ⟨STORE_FAULT, 0x1000⟩) t ∧
      Resolved board lay s (lay.root 1) 0x1000 (s.vma p) STORE_FAULT lay' t ∧ g' ≠ g ∧
      OnBoard lay' t n (Function.update map (1, 1) (some (2 ^ 10 * g' + 0x17))) := by
  have hleaf := h.leaf.trans hmap
  have hbit : ∀ k, k < 10 → (2 ^ 10 * g + 0x13).testBit k = (0x13 : Nat).testBit k := fun k hk => by
    rw [testBit_pteFlags hk, pteFlags_mk (by decide)]
  obtain ⟨l, p, hl, -, hsel, hat, -⟩ := h.area
  obtain ⟨q, lay', t, hrun, hq, hres, hroom⟩ := h.room.fault ⟨STORE_FAULT, 0x1000⟩ (Nat.le_add_left ..) h.runs hl fun e t href => by
    cases href with
    | area hno _ _ =>
        have := hno p hsel
        rw [hat.2.2.2.2] at this
        cases this
    | full _ hfull => exact hfull
    | settled old hold hno _ =>
        rw [hleaf] at hold
        cases hold
        exact absurd ⟨rfl, by rw [hbit _ (by decide)]; rfl⟩ hno
    | unreadable old hold _ _ hno _ =>
        rw [hleaf] at hold
        cases hold
        rcases hno with hread | hhigh
        · rw [hbit _ (by decide)] at hread
          cases hread
        · exact absurd hhigh (Nat.not_le_of_lt (Nat.le_of_ble_eq_true rfl))
    | copy _ hold _ _ _ _ => rw [hleaf] at hold; cases hold
  have hstep : Step board s (.fault ⟨STORE_FAULT, 0x1000⟩) t := .fault h.runs hrun
  have hcopy := hres
  cases hres with
  | demand _ hnone _ _ _ _ _ _ _ => rw [hleaf] at hnone; cases hnone
  | own old _ hold _ _ hone _ _ _ =>
      rw [hleaf] at hold
      cases hold
      rw [pteFrame_mk (by decide)] at hone
      omega
  | copy old g' _ hold _ _ _ _ hzero _ _ _ _ hm _ _ _ _ =>
      rw [hleaf] at hold
      cases hold
      have hflags : 2 ^ 10 * g' + (((2 ^ 10 * g + 0x13) &&& 0x1f) ||| 0x4) = 2 ^ 10 * g' + 0x17 := by
        rw [and_1f_eq, pteFlags_mk (by decide)]
        rfl
      rw [hflags] at hm
      have hon := h.remapped (.of_lt (Nat.le_of_ble_eq_true rfl)) (.step h.reach trivial hstep) hroom hm fun f hf => by
        cases hf
        rw [pteFrame_mk (by decide)]
        omega
      exact ⟨q, lay', t, g', hrun, hstep, hcopy, by rintro rfl; omega, hon⟩

/-- A store at `0x1000` behind the fork gets a private copy of the page. -/
theorem board_copied : ∃ lay lay' s t p g,
    OnBoard lay s 4 (s.userPte) ∧ leafPte s.mem (lay.root 1) 0x1000 = some (2 ^ 10 * g + 0x13) ∧ s.ref g = 3 ∧
      Reachable board (fun _ _ => True) t ∧ Roomy board lay' t 0 ∧
      (doPageFault board ⟨STORE_FAULT, 0x1000⟩).run s = .ok () t ∧
      Resolved board lay s (lay.root 1) 0x1000 (s.vma p) STORE_FAULT lay' t := by
  obtain ⟨lay, s, g, j, hj, h, hthree⟩ := board_forked (n := 4) (by decide)
  have hne : ((1, 1) : Nat × Nat) ≠ (j, 1) := fun he => hj (Prod.mk.inj he).1.symm
  have hmap : Function.update (Function.update (fun _ => none) (1, 1) (some (2 ^ 10 * g + 0x13))) (j, 1)
      (some (2 ^ 10 * g + 0x13)) (1, 1) = some (2 ^ 10 * g + 0x13) := by
    rw [Function.update_of_ne hne, Function.update_self]
  obtain ⟨p, lay', t, g', hrun, -, hres, -, hon⟩ := OnBoard.storeFault (n := 0) h hmap (by omega)
  exact ⟨lay, lay', s, t, p, g, { h with mapped := rfl }, h.leaf.trans hmap, hthree, hon.reach, hon.room, hrun, hres⟩

end Run

end ZjuOs
