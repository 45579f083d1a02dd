import ZjuOs.Proc

/-! `do_page_fault` of `trap.c`. -/
namespace ZjuOs
open Memory

/-- The fields of the trap frame that `do_page_fault` reads. -/
structure PtRegs where
  scause : Nat
  stval : Nat

abbrev FETCH_FAULT : Nat := 0xc
abbrev LOAD_FAULT : Nat := 0xd
abbrev STORE_FAULT : Nat := 0xf

/-- The area lacks the permission that the fault asks for. -/
def refuses (scause flags : Nat) : Bool :=
  (scause == FETCH_FAULT && flags &&& VM_EXEC == 0) || (scause == LOAD_FAULT && flags &&& VM_READ == 0) ||
    (scause == STORE_FAULT && flags &&& VM_WRITE == 0)

/-- Where the copy from the ELF file starts, and the offset of its target in the new page. -/
def copyStart (img : Image) (ptr : VmArea) (va : Nat) : Nat × Nat :=
  let startElf := (img.sramdisk + ptr.vm_pgoff) % 2 ^ 64
  let vmVa := ptr.vm_start
  if PGROUNDUP startElf = PGROUNDUP ((va + (2 ^ 64 - vmVa) + startElf) % 2 ^ 64) then
    (startElf, vmVa &&& 0xFFF)
  else ((startElf + PGROUNDDOWN va + (2 ^ 64 - vmVa)) % 2 ^ 64, 0)

/-- The number of bytes that are copied. -/
def copyLength (img : Image) (ptr : VmArea) (start offset : Nat) : Nat :=
  let endElf := (img.sramdisk + ptr.vm_pgoff + ptr.vm_filesz) % 2 ^ 64
  if endElf ≥ start && endElf ≤ (start + PGSIZE) % 2 ^ 64 then
    (endElf + (2 ^ 64 - start) + (2 ^ 64 - offset)) % 2 ^ 64
  else if endElf > (start + PGSIZE) % 2 ^ 64 then (PGSIZE + (2 ^ 64 - offset)) % 2 ^ 64
  else 0

/-- The page is not mapped: map the new page and fill it from the ELF file. -/
def demandPage (img : Image) (area : VmArea) (page va : Nat) : K Unit := do
  let perm := 0x11 ||| (area.vm_flags &&& 0xe)
  let pgd ← loadWord img ((← get).current + TASK_PGD)
  createMapping img pgd va (VA2PA page) PGSIZE perm
  if area.vm_flags &&& 0x1 ≠ 1 then
    let (start, offset) := copyStart img area va
    memcpy img ((page + offset) % 2 ^ 64) start (copyLength img area start offset)

/-- The frame is shared: its reference is given up, and a private copy is mapped. -/
def cowCopy (img : Image) (ptrp pte va : Nat) : K Unit := do
  putPage (pteTable pte)
  let page ← allocPage
  notNull page
  memset img page 0 PGSIZE
  memcpy img page (PGROUNDDOWN va) PGSIZE
  let pte ← loadEntry img ptrp (VPN va 0)
  sfenceVma
  let pgd ← loadWord img ((← get).current + TASK_PGD)
  createMapping img pgd va (VA2PA page) PGSIZE ((pte &&& 0x1f) ||| 0x4)

/-- The page is mapped: a store to a write-protected page of a writable area. -/
def cowPage (img : Image) (scause flags va : Nat) : K Unit := do
  let pgd ← loadWord img ((← get).current + TASK_PGD)
  let ptrp ← leafTable img va 2 pgd
  let pte ← loadEntry img ptrp (VPN va 0)
  let number ← getPageRefcnt (pteTable pte)
  if scause == STORE_FAULT && flags &&& VM_WRITE == 4 && pte &&& 0x4 == 0 then
    if number = 1 then storeEntry img ptrp (VPN va 0) (pte ||| 0x4)
    else cowCopy img ptrp pte va
  else throw .untrapped

def doPageFault (img : Image) (regs : PtRegs) : K Unit := do
  let ptr ← findVma img ((← get).current + TASK_MM) regs.stval
  if ptr = 0 then throw .untrapped
  else
    let area := (← get).vma ptr
    if refuses regs.scause area.vm_flags then throw .untrapped
    else
      let page ← allocPage
      notNull page
      memset img page 0 8
      let pgd ← loadWord img ((← get).current + TASK_PGD)
      let flagCow ← checkValid img regs.stval pgd
      if flagCow = 0 then demandPage img area page regs.stval
      else cowPage img regs.scause area.vm_flags regs.stval

end ZjuOs
