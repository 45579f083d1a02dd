import Mathlib.Logic.Function.Basic
import ZjuOs.Defs

/-!
The page allocator of `mm.c`. `bitmap` and `ref_cnt` are the two tables that `buddy_init` places behind
the kernel image. A function that loops for ever on its input returns `none`.
-/
namespace ZjuOs

structure Buddy where
  size : Nat
  bitmap : Nat → Nat
  refCnt : Nat → Nat

def leftLeaf (index : Nat) : Nat := index * 2 + 1
def rightLeaf (index : Nat) : Nat := index * 2 + 2
def parent (index : Nat) : Nat := (index + 1) / 2 - 1
def isPowerOf2 (x : Nat) : Bool := x &&& (x - 1) == 0

def fixsize (size : Nat) : Nat :=
  let size := (size + (2 ^ 64 - 1)) % 2 ^ 64
  let size := size ||| size >>> 1
  let size := size ||| size >>> 2
  let size := size ||| size >>> 4
  let size := size ||| size >>> 8
  let size := size ||| size >>> 16
  let size := size ||| size >>> 32
  (size + 1) % 2 ^ 64

/-- The `for` loop of `buddy_free`: climb from a leaf to the first zero entry. -/
def freeClimb (bitmap : Nat → Nat) : Nat → Nat → Nat → Nat × Nat
  | 0, index, nodeSize => (index, nodeSize)
  | fuel + 1, index, nodeSize =>
      if bitmap index = 0 then (index, nodeSize)
      else if index = 0 then (index, nodeSize * 2)
      else freeClimb bitmap fuel (parent index) (nodeSize * 2)

/-- The `while` loop of `buddy_free`: merge or take the maximum on the way to the root. -/
def freeUpdate : Nat → (Nat → Nat) → Nat → Nat → (Nat → Nat)
  | 0, bitmap, _, _ => bitmap
  | fuel + 1, bitmap, index, nodeSize =>
      if index = 0 then bitmap
      else
        let index := parent index
        let nodeSize := nodeSize * 2
        let leftLongest := bitmap (leftLeaf index)
        let rightLongest := bitmap (rightLeaf index)
        let bitmap := Function.update bitmap index
          (if leftLongest + rightLongest = nodeSize then nodeSize else max leftLongest rightLongest)
        freeUpdate fuel bitmap index nodeSize

/-- Both loops move to a smaller index, so the leaf's index bounds their length. -/
def buddyFree (b : Buddy) (pfn : Nat) : Buddy :=
  if b.refCnt pfn ≠ 0 then b
  else
    let leaf := pfn + b.size - 1
    let (index, nodeSize) := freeClimb b.bitmap (leaf + 1) leaf 1
    let bitmap := Function.update b.bitmap index nodeSize
    { b with bitmap := freeUpdate index bitmap index nodeSize }

/-- The descent of `buddy_alloc`. The node size is below `2 ^ 64`, so after 64 halvings it is 0 and
stays 0: a request it has not met by then is never met and the loop does not end. -/
def allocDescend (bitmap : Nat → Nat) (nrpages : Nat) : Nat → Nat → Nat → Option (Nat × Nat)
  | 0, _, _ => none
  | fuel + 1, index, nodeSize =>
      if nodeSize = nrpages then some (index, nodeSize)
      else if nrpages ≤ bitmap (leftLeaf index) then
        allocDescend bitmap nrpages fuel (leftLeaf index) (nodeSize / 2)
      else allocDescend bitmap nrpages fuel (rightLeaf index) (nodeSize / 2)

/-- The `while` loop of `buddy_alloc`. -/
def allocUpdate : Nat → (Nat → Nat) → Nat → (Nat → Nat)
  | 0, bitmap, _ => bitmap
  | fuel + 1, bitmap, index =>
      if index = 0 then bitmap
      else
        let index := parent index
        let bitmap := Function.update bitmap index
          (max (bitmap (leftLeaf index)) (bitmap (rightLeaf index)))
        allocUpdate fuel bitmap index

def buddyAlloc (b : Buddy) (nrpages : Nat) : Option (Nat × Buddy) :=
  let nrpages :=
    if nrpages ≤ 0 then 1 else if !isPowerOf2 nrpages then fixsize nrpages else nrpages
  if b.bitmap 0 < nrpages then some (0, b)
  else
    match allocDescend b.bitmap nrpages 66 0 b.size with
    | none => none
    | some (index, nodeSize) =>
        let bitmap := Function.update b.bitmap index 0
        let pfn := ((index + 1) * nodeSize + (2 ^ 64 - b.size)) % 2 ^ 64
        let refCnt := Function.update b.refCnt pfn 1
        some (pfn, { b with bitmap := allocUpdate index bitmap index, refCnt })

def pageRefInc (b : Buddy) (pfn : Nat) : Buddy :=
  { b with refCnt := Function.update b.refCnt pfn ((b.refCnt pfn + 1) % 2 ^ 64) }

def pageRefDec (b : Buddy) (pfn : Nat) : Buddy :=
  let b :=
    if 0 < b.refCnt pfn then { b with refCnt := Function.update b.refCnt pfn (b.refCnt pfn - 1) } else b
  if b.refCnt pfn = 0 then buddyFree b pfn else b

/-- The level-by-level initialisation of `bitmap`: entries `i, …, i + n - 1`. -/
def initNodes : Nat → Nat → Nat → (Nat → Nat) → (Nat → Nat)
  | 0, _, _, bitmap => bitmap
  | n + 1, i, nodeSize, bitmap =>
      let nodeSize := if isPowerOf2 (i + 1) then nodeSize / 2 else nodeSize
      initNodes n (i + 1) nodeSize (Function.update bitmap i nodeSize)

/-- The reservation loop of `buddy_init`; the result of `buddy_alloc` is not looked at. -/
def reserve (limit : Nat) : Nat → Nat → Buddy → Option Buddy
  | 0, _, b => some b
  | fuel + 1, pfn, b =>
      if PFN2PHYS pfn < limit then
        match buddyAlloc b 1 with
        | none => none
        | some (_, b) => reserve limit fuel (pfn + 1) b
      else some b

/-- `buddy_init` for a memory of `phySize` bytes (`PHY_SIZE` in the kernel) and a kernel image that ends
at `ekernel`; with the allocator it returns the moved `free_page_start`. -/
def buddyInit (phySize ekernel : Nat) : Option (Buddy × Nat) :=
  let buddySize := phySize / PGSIZE
  let size := if !isPowerOf2 buddySize then fixsize buddySize else buddySize
  let freePageStart := ekernel + 2 * size * 8
  let freePageStart := freePageStart + size * 8
  let b : Buddy :=
    { size
      bitmap := initNodes (2 * size - 1) 0 (size * 2) fun _ => 0
      refCnt := fun _ => 0 }
  let limit := VA2PA freePageStart
  (reserve limit (limit / PGSIZE + 1) 0 b).map fun b => (b, freePageStart)

end ZjuOs
