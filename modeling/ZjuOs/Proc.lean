import ZjuOs.Vm

/-! Tasks and their memory areas: `proc.c`, with the ELF headers it reads and `rand.c`. -/
namespace ZjuOs
open Memory

section TaskStruct

/-! Offsets in `task_struct`. -/

abbrev TASK_COUNTER : Nat := 8
abbrev TASK_PRIORITY : Nat := 16
abbrev TASK_PID : Nat := 24
abbrev THREAD_RA : Nat := 32
abbrev THREAD_SP : Nat := 40
abbrev THREAD_S : Nat := 48
abbrev THREAD_SEPC : Nat := 144
abbrev THREAD_SSTATUS : Nat := 152
abbrev THREAD_SSCRATCH : Nat := 160
abbrev TASK_PGD : Nat := 168
abbrev TASK_MM : Nat := 176

end TaskStruct

abbrev PRIORITY_MIN : Nat := 1
abbrev PRIORITY_MAX : Nat := 10
abbrev TASK_RUNNING : Nat := 0
abbrev USER_START : Nat := 0

def srand (s : Nat) : K Unit := modify fun k => { k with seed := (s + (2 ^ 32 - 1)) % 2 ^ 32 }

def rand : K Nat := do
  modify fun k => { k with seed := (6364136223846793005 * k.seed + 1) % 2 ^ 64 }
  return (← get).seed >>> 33

/-- `find_vma` from the node `ptr`. More than `2 ^ 64` nodes are a cycle. -/
def findFrom (vma : Nat → VmArea) (addr : Nat) : Nat → Nat → Option Nat
  | 0, _ => none
  | fuel + 1, ptr =>
      if ptr = 0 then some 0
      else if addr ≥ (vma ptr).vm_start && addr ≤ (vma ptr).vm_end then some ptr
      else findFrom vma addr fuel (vma ptr).vm_next

/-- The node of the list at `mm` for `addr`, or 0. -/
def findVma (img : Image) (mm addr : Nat) : K Nat := do
  let mmap ← loadWord img mm
  match findFrom (← get).vma addr (2 ^ 64) mmap with
  | some ptr => return ptr
  | none => throw .diverge

def doMmap (img : Image) (mm addr len vm_pgoff vm_filesz flags : Nat) : K Nat := do
  let temp ← allocPage
  notNull temp
  let mmap ← loadWord img mm
  modify fun s =>
    let area : VmArea :=
      { vm_mm := mm, vm_start := addr, vm_end := (addr + len) % 2 ^ 64, vm_next := mmap, vm_prev := 0
        vm_flags := flags, vm_pgoff, vm_filesz }
    let vma := if mmap = 0 then s.vma
      else Function.update s.vma mmap { s.vma mmap with vm_prev := temp }
    { s with vma := Function.update vma temp area }
  storeWord img mm temp
  return addr

section Elf

abbrev PT_LOAD : Nat := 1
abbrev PF_X : Nat := 0x1
abbrev PF_W : Nat := 0x2
abbrev PF_R : Nat := 0x4

structure Elf64Phdr where
  p_type : Nat
  p_flags : Nat
  p_offset : Nat
  p_vaddr : Nat
  p_filesz : Nat
  p_memsz : Nat

/-- A little-endian field of `n` bytes in kernel memory. -/
def loadField (img : Image) (va : Nat) : Nat → K Nat
  | 0 => return 0
  | n + 1 => do
      let c ← loadByte img (va % 2 ^ 64)
      let rest ← loadField img (va + 1) n
      return c.toNat + 256 * rest

def loadPhdr (img : Image) (phdr : Nat) : K Elf64Phdr := do
  return {
    p_type := ← loadField img phdr 4
    p_flags := ← loadField img (phdr + 4) 4
    p_offset := ← loadField img (phdr + 8) 8
    p_vaddr := ← loadField img (phdr + 16) 8
    p_filesz := ← loadField img (phdr + 32) 8
    p_memsz := ← loadField img (phdr + 40) 8 }

/-- R, W and X of a segment at the places they have in `vm_flags`. -/
def segmentPerm (flags : Nat) : Nat :=
  ((flags &&& 0x2) <<< 1) ||| ((flags &&& 0x4) >>> 1) ||| ((flags &&& 0x1) <<< 3)

/-- The header loop of `VMA_init`, with `n` headers to go. -/
def mmapSegments (img : Image) (task : Nat) : Nat → Nat → K Unit
  | 0, _ => return ()
  | n + 1, phdr => do
      let p ← loadPhdr img phdr
      if p.p_type = PT_LOAD then
        let _ ← doMmap img (task + TASK_MM) p.p_vaddr p.p_memsz p.p_offset p.p_filesz
          (segmentPerm p.p_flags)
      mmapSegments img task n (phdr + 56)

def vmaInit (img : Image) (task : Nat) : K Unit := do
  let ePhoff ← loadField img (img.sramdisk + 32) 8
  let ePhnum ← loadField img (img.sramdisk + 56) 2
  mmapSegments img task ePhnum (img.sramdisk + ePhoff)
  let _ ← doMmap img (task + TASK_MM) (USER_END - PGSIZE) PGSIZE 0 0 0x7
  let eEntry ← loadField img (img.sramdisk + 24) 8
  storeWord img (task + THREAD_SEPC) eEntry

end Elf

/-- Stores to consecutive words from `va`. -/
def storeWords (img : Image) : Nat → List Nat → K Unit
  | _, [] => return ()
  | va, v :: vs => do
      storeWord img va v
      storeWords img (va + 8) vs

/-- `pgd[j] = swapper_pg_dir[j]` for the `n` entries from `j`. -/
def copyRoot (img : Image) (pgd : Nat) : Nat → Nat → K Unit
  | 0, _ => return ()
  | n + 1, j => do
      let pte ← loadWord img (img.swapperPgDir + 8 * j)
      storeWord img (pgd + 8 * j) pte
      copyRoot img pgd n (j + 1)

/-- The round of `task_init` for `task[i]`. -/
def initTask (img : Image) (i : Nat) : K Unit := do
  let task ← kalloc
  modify fun s => { s with task := Function.update s.task i task }
  notNull task
  let number ← rand
  storeWords img task
    [TASK_RUNNING, 0, number % (PRIORITY_MAX - PRIORITY_MIN + 1) + PRIORITY_MIN, i]
  storeWords img (task + THREAD_RA) [img.dummy, (task + PGSIZE) % 2 ^ 64]
  storeWords img (task + THREAD_S) (List.replicate 12 0)
  storeWords img (task + THREAD_SEPC) [USER_START, 0x40020, USER_END]
  let pgd ← allocPage
  storeWord img (task + TASK_PGD) pgd
  notNull pgd
  copyRoot img pgd (PGSIZE / 8) 0
  let mm ← allocPage
  notNull mm
  let garbage ← loadWord img mm
  storeWord img (task + TASK_MM) garbage
  storeWord img (task + TASK_MM) 0
  vmaInit img task

def initTasks (img : Image) : Nat → Nat → K Unit
  | 0, _ => return ()
  | n + 1, i => do
      initTask img i
      initTasks img n (i + 1)

def taskInit (img : Image) : K Unit := do
  srand 2024
  let idle ← kalloc
  notNull idle
  storeWords img idle [TASK_RUNNING, 0, 0, 0]
  storeWords img (idle + THREAD_S) (List.replicate 12 0)
  modify fun s => { s with idle, current := idle, task := Function.update s.task 0 idle }
  initTasks img (← get).tasksNumber 1

/-- The part of `switch_to` that selects the address space. -/
def switchTo (img : Image) (next : Nat) : K Unit := do
  if next = (← get).current then return ()
  else
    modify fun s => { s with current := next }
    let pgd ← loadWord img (next + TASK_PGD)
    modify fun s => { s with satp := (VA2PA pgd >>> 12) ||| 0x8000000000000000 }
    sfenceVma

end ZjuOs
