import ZjuOs.Trap

/-! The two forks of `syscall.c`. -/
namespace ZjuOs
open Memory

section PtRegs

/-! Offsets in `pt_regs`. -/

abbrev REGS_SP : Nat := 16
abbrev REGS_A0 : Nat := 80
abbrev REGS_SEPC : Nat := 256

/-- Size of the trap frame. -/
abbrev REGS_SIZE : Nat := 288

end PtRegs

/-- The first empty slot of `task[]`. -/
def freeSlot (task : Nat → Nat) : Option Nat := (List.range NR_TASKS).find? fun i => task i == 0

/-- Enter the child into the first empty slot; its index, or nothing when all are taken. -/
def takeSlot (child : Nat) : K (Option Nat) := do
  match freeSlot (← get).task with
  | none => return none
  | some i =>
      modify fun s => { s with tasksNumber := i, task := Function.update s.task i child }
      return some i

/-- The child's frame lies at the offset of the parent's in the copied page. -/
def childFrame (regs child : Nat) : Nat := (child + (regs + (2 ^ 64 - PGROUNDDOWN regs))) % 2 ^ 64

/-- A valid page of the parent in `do_fork`: the child gets a copy. -/
def copyPage (img : Image) (child va flags : Nat) : K Unit := do
  let page ← allocPage
  notNull page
  memset img page 0 PGSIZE
  memcpy img page va PGSIZE
  let pgd ← loadWord img (child + TASK_PGD)
  createMapping img pgd va (VA2PA page) PGSIZE (0x11 ||| (flags &&& 0xe))

/-- A valid page of the parent in `do_cow_fork`: both get it without W. -/
def sharePage (img : Image) (child va : Nat) : K Unit := do
  let pgd ← loadWord img ((← get).current + TASK_PGD)
  let ptr ← leafTable img va 2 pgd
  let pte ← loadEntry img ptr (VPN va 0)
  storeEntry img ptr (VPN va 0) (pte &&& 0xfffffffffffffffb)
  let pte ← loadEntry img ptr (VPN va 0)
  let pa := ((pte >>> 10) <<< (12 + (va &&& 0xfff))) % 2 ^ 64
  let _ ← getPage (PA2VA pa)
  let pte ← loadEntry img ptr (VPN va 0)
  let pgd ← loadWord img (child + TASK_PGD)
  createMapping img pgd va pa PGSIZE (pte &&& 0x1f)

/-- `while (va < end)` over the pages of an area: `visit` runs on those valid in the page table of
`current`. More than `2 ^ 52` rounds do not end. -/
def forValidPages (img : Image) (visit : Nat → K Unit) : Nat → Nat → Nat → K Unit
  | 0, _, _ => throw .diverge
  | fuel + 1, va, stop =>
      if va < stop then do
        let pgd ← loadWord img ((← get).current + TASK_PGD)
        let valid ← checkValid img va pgd
        if valid = 1 then visit va
        forValidPages img visit fuel ((va + PGSIZE) % 2 ^ 64) stop
      else return ()

/-- The list loop of both forks. A list of more than `2 ^ 64` nodes is a cycle. -/
def forAreas (visit : VmArea → K Unit) : Nat → Nat → K Unit
  | 0, _ => throw .diverge
  | fuel + 1, ptr =>
      if ptr = 0 then return ()
      else do
        let area := (← get).vma ptr
        visit area
        forAreas visit fuel (((← get).vma ptr).vm_next)

/-- `do_fork` up to its list loop: the child's page and its number, or nothing when no slot is empty. -/
def forkChild (img : Image) (regs : Nat) : K (Option (Nat × Nat)) := do
  let child ← allocPage
  notNull child
  memcpy img child (← get).current PGSIZE
  match ← takeSlot child with
  | none => return none
  | some pid =>
      storeWord img (child + TASK_PID) pid
      storeWord img (child + THREAD_RA) img.retFromFork
      let childRegs := childFrame regs child
      storeWord img (child + THREAD_SP) childRegs
      let pgd ← allocPage
      storeWord img (child + TASK_PGD) pgd
      notNull pgd
      memset img pgd 0 PGSIZE
      memcpy img pgd img.swapperPgDir PGSIZE
      storeWord img (childRegs + REGS_A0) 0
      let sp ← loadWord img (childRegs + REGS_SP)
      storeWord img (childRegs + REGS_SP) ((sp + (2 ^ 64 - (← get).current) + child) % 2 ^ 64)
      let sepc ← loadWord img (regs + REGS_SEPC)
      storeWord img (childRegs + REGS_SEPC) ((sepc + 4) % 2 ^ 64)
      return some (child, pid)

def doFork (img : Image) (regs : Nat) : K Int := do
  match ← forkChild img regs with
  | none => return -1
  | some (child, pid) =>
      let mmap ← loadWord img ((← get).current + TASK_MM)
      forAreas (fun area => do
        let _ ← doMmap img (child + TASK_MM) area.vm_start
          ((area.vm_end + (2 ^ 64 - area.vm_start)) % 2 ^ 64) area.vm_pgoff area.vm_filesz area.vm_flags
        forValidPages img (fun va => copyPage img child va area.vm_flags) (2 ^ 52)
          (PGROUNDDOWN area.vm_start) area.vm_end) (2 ^ 64) mmap
      return pid

/-- `do_cow_fork` up to its list loop. -/
def cowChild (img : Image) (regs : Nat) : K (Option (Nat × Nat)) := do
  let child ← allocPage
  notNull child
  memset img child 0 PGSIZE
  memcpy img child (← get).current PGSIZE
  match ← takeSlot child with
  | none => return none
  | some pid =>
      storeWord img (child + TASK_PID) pid
      let childRegs := childFrame regs child
      storeWord img (child + THREAD_SP) childRegs
      storeWord img (child + THREAD_RA) img.retFromFork
      let sp ← loadWord img (childRegs + REGS_SP)
      storeWord img (childRegs + REGS_SP) ((sp + child + (2 ^ 64 - (← get).current)) % 2 ^ 64)
      storeWord img (childRegs + REGS_A0) 0
      let sepc ← loadWord img (childRegs + REGS_SEPC)
      storeWord img (childRegs + REGS_SEPC) ((sepc + 4) % 2 ^ 64)
      let pgd ← allocPage
      storeWord img (child + TASK_PGD) pgd
      notNull pgd
      memcpy img pgd img.swapperPgDir PGSIZE
      return some (child, pid)

def doCowFork (img : Image) (regs : Nat) : K Int := do
  match ← cowChild img regs with
  | none => return -1
  | some (child, pid) =>
      let mmap ← loadWord img ((← get).current + TASK_MM)
      forAreas (fun area =>
        forValidPages img (sharePage img child) (2 ^ 52) (PGROUNDDOWN area.vm_start) area.vm_end)
        (2 ^ 64) mmap
      sfenceVma
      return pid

end ZjuOs
