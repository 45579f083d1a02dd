import ZjuOs.Buddy
import ZjuOs.Exec
import ZjuOs.Memory

/-!
The machine under the kernel: physical memory, Sv39 translation, and the kernel's own loads and stores.
`vm_area_struct` objects live in a heap of their own, keyed by their address; every other object of a
page handed out by the allocator is bytes of that page.
-/
namespace ZjuOs
open Memory

/-- The linked kernel, and a memory of `2 ^ order` page frames (`order = 15` for `PHY_SIZE`). -/
structure Image where
  order : Nat
  stext : Nat
  etext : Nat
  srodata : Nat
  erodata : Nat
  sdata : Nat
  sramdisk : Nat
  eramdisk : Nat
  swapperPgDir : Nat
  dummy : Nat
  retFromFork : Nat
  ekernel : Nat
  order_le : order ≤ 20
  start : VM_START ≤ stext ∧ stext ≤ ekernel
  room : ekernel + 24 * 2 ^ order < 2 ^ 64
  ekernel_le : ekernel ≤ VM_START + 2 ^ order * PGSIZE
  swapper_start : VM_START ≤ swapperPgDir
  swapper_end : swapperPgDir + PGSIZE ≤ ekernel
  swapper_aligned : swapperPgDir % PGSIZE = 0

def Image.phySize (img : Image) : Nat := 2 ^ img.order * PGSIZE

def Image.phyEnd (img : Image) : Nat := PHY_START + img.phySize

structure VmArea where
  vm_mm : Nat
  vm_start : Nat
  vm_end : Nat
  vm_next : Nat
  vm_prev : Nat
  vm_flags : Nat
  vm_pgoff : Nat
  vm_filesz : Nat

/-- Why a kernel path does not return: a null pointer is dereferenced, an access of the kernel faults,
`untrapped_handler` is reached, or a loop does not end. -/
inductive Halt
  | null
  | fault
  | untrapped
  | diverge
  deriving DecidableEq

/-- What a run did to the page tables: a page was handed out as a table in the given memory, a word of
a table was stored, or `sfence.vma` was executed. An edit carries the memory after it, a fence the memory
that later translations are read from. -/
inductive Event
  | table (page : Nat) (mem : Mem)
  | edit (pa : Nat) (mem : Mem)
  | fence (mem : Mem)

structure KState where
  mem : Mem
  buddy : Buddy
  satp : Nat
  idle : Nat
  current : Nat
  task : Nat → Nat
  tasksNumber : Nat
  seed : Nat
  vma : Nat → VmArea
  trace : List Event

namespace KState

@[simps -fullyApplied] def withMem (s : KState) (mem : Mem) : KState := { s with mem }

@[simps -fullyApplied] def withBuddy (s : KState) (buddy : Buddy) : KState := { s with buddy }

@[simps -fullyApplied] def log (s : KState) (e : Event) : KState := { s with trace := e :: s.trace }

@[simp] theorem withMem_withMem (s : KState) (m m' : Mem) : (s.withMem m).withMem m' = s.withMem m' := rfl

@[simp] theorem withMem_self (s : KState) : s.withMem s.mem = s := rfl

end KState

abbrev K : Type → Type := EStateM Halt KState

section Hardware

abbrev PTE_V : Nat := 0
abbrev PTE_R : Nat := 1
abbrev PTE_W : Nat := 2
abbrev PTE_X : Nat := 3
abbrev PTE_U : Nat := 4

/-- `VPN[j]` of an address. -/
def VPN (va j : Nat) : Nat := (va >>> (12 + 9 * j)) &&& 0x1ff

def ppn (pte : Nat) : Nat := (pte >>> 10) % 2 ^ 44

/-- An Sv39 address: bits 63 to 39 repeat bit 38. -/
def Canonical (va : Nat) : Prop := va / 2 ^ 38 = 0 ∨ va / 2 ^ 38 = 2 ^ 26 - 1

instance (va : Nat) : Decidable (Canonical va) := inferInstanceAs (Decidable (_ ∨ _))

/-- The entry is invalid or of the reserved kind that is writable and not readable. -/
def pteFaults (pte : Nat) : Bool :=
  !pte.testBit PTE_V || (!pte.testBit PTE_R && pte.testBit PTE_W)

def pteLeaf (pte : Nat) : Bool := pte.testBit PTE_R || pte.testBit PTE_X

/-- The walk from table `f`; it ends in a leaf and the level where it was found. -/
def sv39Walk (m : Mem) (va : Nat) : Nat → Nat → Option (Nat × Nat)
  | 0, f =>
      let pte := entry m f (VPN va 0)
      if pteFaults pte then none else if pteLeaf pte then some (pte, 0) else none
  | j + 1, f =>
      let pte := entry m f (VPN va (j + 1))
      if pteFaults pte then none
      else if pteLeaf pte then some (pte, j + 1)
      else sv39Walk m va j (ppn pte)

/-- The leaf entry and the physical address of `va` under the root table `root`. -/
def translate (m : Mem) (root va : Nat) : Option (Nat × Nat) :=
  if Canonical va then
    (sv39Walk m va 2 root).bind fun (pte, j) =>
      if ppn pte % 2 ^ (9 * j) = 0 then some (pte, ppn pte * PGSIZE + va % 2 ^ (12 + 9 * j)) else none
  else none

/-- The root table that `satp` selects. -/
def satpRoot (satp : Nat) : Nat := satp % 2 ^ 44

end Hardware

section Access

/-- All of RAM is mapped at `PA2VA`, readable and writable. -/
def Image.inDirectMap (img : Image) (va : Nat) : Bool :=
  decide (VM_START ≤ va ∧ va < VM_START + img.phySize)

/-- The physical address of a supervisor access. `SUM` is set and `MXR` is clear: pages of the user are
accessible, and a load needs R. -/
def kernelPa (img : Image) (bit va : Nat) : K Nat := do
  if img.inDirectMap va then return VA2PA va
  else
    let s ← get
    match translate s.mem (satpRoot s.satp) va with
    | some (pte, pa) => if pte.testBit bit then return pa else throw .fault
    | none => throw .fault

def loadWord (img : Image) (va : Nat) : K Nat := do
  let pa ← kernelPa img PTE_R va
  return ld 8 (← get).mem pa

def storeWord (img : Image) (va v : Nat) : K Unit := do
  let pa ← kernelPa img PTE_W va
  modify fun s => s.withMem (sd 8 s.mem pa v)

def loadByte (img : Image) (va : Nat) : K UInt8 := do
  let pa ← kernelPa img PTE_R va
  return (← get).mem pa

def storeByte (img : Image) (va : Nat) (c : UInt8) : K Unit := do
  let pa ← kernelPa img PTE_W va
  modify fun s => s.withMem (Function.update s.mem pa c)

/-- A null pointer that is about to be dereferenced. -/
def notNull (p : Nat) : K Unit := if p = 0 then throw .null else return ()

/-- The loop of `memset`, with `n` bytes to go. -/
def memset (img : Image) (dest : Nat) (c : UInt8) : Nat → K Unit
  | 0 => return ()
  | n + 1 => do
      storeByte img dest c
      memset img ((dest + 1) % 2 ^ 64) c n

/-- The loop of `memcpy`, with `n` bytes to go. -/
def memcpy (img : Image) (dest source : Nat) : Nat → K Unit
  | 0 => return ()
  | n + 1 => do
      let c ← loadByte img source
      storeByte img dest c
      memcpy img ((dest + 1) % 2 ^ 64) ((source + 1) % 2 ^ 64) n

def sfenceVma : K Unit := modify fun s => s.log (.fence s.mem)

end Access

section Pages

def allocPages (nrpages : Nat) : K Nat := do
  match buddyAlloc (← get).buddy nrpages with
  | none => throw .diverge
  | some (pfn, b) =>
      modify fun s => s.withBuddy b
      return if pfn = 0 then 0 else PA2VA (PFN2PHYS pfn)

def allocPage : K Nat := allocPages 1

def freePages (va : Nat) : K Unit :=
  modify fun s => s.withBuddy (buddyFree s.buddy (PHYS2PFN (VA2PA va)))

def kalloc : K Nat := allocPage

def kfree (addr : Nat) : K Unit := freePages addr

def getPage (va : Nat) : K Nat := do
  let pfn := PHYS2PFN (VA2PA va)
  if (← get).buddy.refCnt pfn = 0 then return 1
  else
    modify fun s => s.withBuddy (pageRefInc s.buddy pfn)
    return 0

def putPage (va : Nat) : K Unit :=
  modify fun s => s.withBuddy (pageRefDec s.buddy (PHYS2PFN (VA2PA va)))

def getPageRefcnt (va : Nat) : K Nat := do
  return (← get).buddy.refCnt (PHYS2PFN (VA2PA va))

end Pages

end ZjuOs
