import ZjuOs.Machine

/-! Page tables as the kernel builds and reads them: `vm.c`, and `checkValid` of `syscall.c`. -/
namespace ZjuOs
open Memory

/-- Word `i` of the table at `ptr`. -/
def loadEntry (img : Image) (ptr i : Nat) : K Nat := do
  notNull ptr
  loadWord img ((ptr + 8 * i) % 2 ^ 64)

def storeEntry (img : Image) (ptr i v : Nat) : K Unit := do
  notNull ptr
  let pa ← kernelPa img PTE_W ((ptr + 8 * i) % 2 ^ 64)
  modify fun s =>
    let mem := sd 8 s.mem pa v
    (s.withMem mem).log (.edit pa mem)

/-- `(uint64_t *)(((pte >> 10) << 12) + PA2VA_OFFSET)` -/
def pteTable (pte : Nat) : Nat := PA2VA (((pte >>> 10) <<< 12) % 2 ^ 64)

/-- `((pa >> 12) & 0xfffffffffff) << 10 | perm` -/
def mkPte (pa perm : Nat) : Nat := (((pa >>> 12) &&& 0xfffffffffff) <<< 10) ||| perm

/-- One level of the walk of `create_mapping`. -/
def nextTable (img : Image) (ptr i : Nat) : K Nat := do
  let temp ← loadEntry img ptr i
  if temp &&& 0x1 = 0x0 then
    let newPtr ← kalloc
    modify fun s => s.log (.table newPtr s.mem)
    storeEntry img ptr i (mkPte (VA2PA newPtr) 0x1)
    return newPtr
  else return pteTable temp

/-- One round of the page loop of `create_mapping`. -/
def mapPage (img : Image) (pgtbl va pa perm : Nat) : K Unit := do
  let ptr ← nextTable img pgtbl (VPN va 2)
  let ptr ← nextTable img ptr (VPN va 1)
  storeEntry img ptr (VPN va 0) (mkPte pa perm)

def mapPages (img : Image) (pgtbl perm : Nat) : Nat → Nat → Nat → K Unit
  | 0, _, _ => return ()
  | n + 1, va, pa => do
      mapPage img pgtbl va pa perm
      mapPages img pgtbl perm n ((va + PGSIZE) % 2 ^ 64) ((pa + PGSIZE) % 2 ^ 64)

def createMapping (img : Image) (pgtbl va pa sz perm : Nat) : K Unit :=
  let n := (sz + PGSIZE - 1) % 2 ^ 64 / PGSIZE
  mapPages img pgtbl perm n va pa

/-- The walk of `checkValid` below level `j`: the table that holds the leaf, if the way is valid. -/
def walkTables (img : Image) (address : Nat) : Nat → Nat → K (Option Nat)
  | 0, ptr => return some ptr
  | j + 1, ptr => do
      let pte ← loadEntry img ptr (VPN address (j + 1))
      if pte &&& 0x1 = 0 then return none
      else walkTables img address j (pteTable pte)

def checkValid (img : Image) (address pgd : Nat) : K Nat := do
  match ← walkTables img address 2 pgd with
  | none => return 0
  | some ptr =>
      let pte ← loadEntry img ptr (VPN address 0)
      return if pte &&& 0x1 = 0 then 0 else 1

/-- The unchecked walk of `do_page_fault` and `do_cow_fork` to the table that holds the leaf. -/
def leafTable (img : Image) (address : Nat) : Nat → Nat → K Nat
  | 0, ptr => return ptr
  | j + 1, ptr => do
      let pte ← loadEntry img ptr (VPN address (j + 1))
      leafTable img address j (pteTable pte)

/-- While it runs, `satp` selects the early table, which maps all of RAM. -/
def setupVmFinal (img : Image) : K Unit := do
  let swapper := img.swapperPgDir
  memset img swapper 0x0 PGSIZE
  createMapping img swapper img.stext (VA2PA img.stext) (img.etext - img.stext) 0xb
  createMapping img swapper img.srodata (VA2PA img.srodata) (img.erodata - img.srodata) 0x3
  createMapping img swapper img.sdata (VA2PA img.sdata)
    ((img.phyEnd + PA2VA_OFFSET + (2 ^ 64 - img.sdata)) % 2 ^ 64) 0x7
  createMapping img swapper img.sramdisk (VA2PA img.sramdisk) (img.eramdisk - img.sramdisk) 0xf
  modify fun s => { s with satp := 0x8000000000000000 ||| (VA2PA swapper >>> 12) }
  sfenceVma

end ZjuOs
