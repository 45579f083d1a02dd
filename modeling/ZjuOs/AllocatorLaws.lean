import ZjuOs.Board

/-! What becomes of the allocator's tables when a page is released that is free, a block through `free_pages`, or a
request is larger than the memory. -/
namespace ZjuOs
open BuddyTree Exec

/-- No entry of either table has changed. -/
def SameTables (b b' : Buddy) : Prop :=
  (∀ i, i < 2 * b.size - 1 → b'.bitmap i = b.bitmap i) ∧ ∀ p, p < b.size → b'.refCnt p = b.refCnt p

section Stray
variable {k ekernel fps p : Nat} {L : Set Block} {bitmap : Nat → Nat} {b : Buddy} {s : Allocator}

/-- From a free page the climb meets no zero entry and goes past the root. -/
theorem freeClimb_free (ht : Tree k L bitmap) {c : Block} (hc : InTree k c) {fuel : Nat} (hfuel : k - c.order < fuel)
    (hne : ∀ h q, h ≤ k → c.Within ⟨h, q⟩ → longest L h q ≠ 0) :
    freeClimb bitmap fuel (idx k c.order c.pos) (2 ^ c.order) = (0, 2 * 2 ^ k) := by
  induction fuel generalizing c with
  | zero => omega
  | succ fuel ih =>
      rw [freeClimb, ht.entry _ _ hc.1 hc.2, if_neg (hne _ _ hc.1 (.refl c))]
      by_cases hlt : c.order < k
      · rw [if_neg (idx_ne_zero hlt _), parent_idx hlt, ← Nat.pow_succ]
        exact ih (c := c.up) (hc.up hlt) (by simp only [Block.up]; omega) fun h q hh hw => hne h q hh (c.within_up.trans hw)
      · have hk : c.order = k := le_antisymm hc.1 (Nat.le_of_not_lt hlt)
        have hpos : c.pos = 0 := by
          have hpos := hc.2
          rw [hk] at hpos
          simpa using hpos
        rw [hk, hpos, idx_root, if_pos rfl, Nat.mul_comm]

theorem buddyFree_free (hsize : b.size = 2 ^ k) (ht : Tree k L b.bitmap) (hp : p < 2 ^ k) (hfree : pageFree b p = true)
    (hzero : b.refCnt p = 0) :
    buddyFree b p = { b with bitmap := Function.update b.bitmap 0 (2 * 2 ^ k) } := by
  have hleaf : InTree k ⟨0, p⟩ := ⟨Nat.zero_le _, by simpa using hp⟩
  have hpos := Nat.two_pow_pos k
  have hk : k < 2 ^ k := Nat.lt_two_pow_self
  have hfuel : idx k 0 p < p + 2 ^ k := by
    simp only [idx, Nat.sub_zero]
    omega
  rw [pageFree, hsize, idx_leaf] at hfree
  have hne := (pathFree_iff ht hleaf hfuel).mp hfree
  have hlevels : k - 0 < idx k 0 p + 1 := by
    simp only [idx, Nat.sub_zero]
    omega
  have hclimb := freeClimb_free ht hleaf hlevels hne
  simp only [Nat.pow_zero] at hclimb
  simp only [buddyFree, hzero, hsize, idx_leaf, ne_eq, not_true_eq_false, if_false, hclimb, freeUpdate]

theorem pageRefDec_zero (hzero : b.refCnt p = 0) : pageRefDec b p = buddyFree b p := by
  simp [pageRefDec, hzero]

/-- The root entry becomes twice the size of the memory. -/
theorem buddyFree_free_root (hsize : b.size = 2 ^ k) (ht : Tree k L b.bitmap) (hp : p < b.size)
    (hfree : pageFree b p = true) (hzero : b.refCnt p = 0) :
    (buddyFree b p).bitmap 0 = 2 * b.size ∧ ¬ SameTables b (buddyFree b p) := by
  have hroot : b.bitmap 0 ≤ 2 ^ k := by
    rw [ht.root]
    exact longest_le ..
  have hpos := Nat.two_pow_pos k
  have hset : Function.update b.bitmap 0 (2 * 2 ^ k) 0 = 2 * 2 ^ k := Function.update_self ..
  have hnew : (buddyFree b p).bitmap 0 = 2 * 2 ^ k := by
    rw [buddyFree_free hsize ht (hsize ▸ hp) hfree hzero]
    exact hset
  rw [hsize]
  refine ⟨hnew, fun hsame => ?_⟩
  have hold := hsame.1 0 (by omega)
  omega

/-- To release a page that is free spoils the tree, in every state. -/
theorem stray_release (hfit : Fits k ekernel) (h : AllocReach (2 ^ k * PGSIZE) ekernel fps s) (hp : p < s.buddy.size)
    (hfree : pageFree s.buddy p = true) (hzero : s.buddy.refCnt p = 0) :
    s.buddy.bitmap 0 ≤ s.buddy.size ∧ (buddyFree s.buddy p).bitmap 0 = 2 * s.buddy.size ∧
      (pageRefDec s.buddy p).bitmap 0 = 2 * s.buddy.size ∧ ¬ SameTables s.buddy (buddyFree s.buddy p) ∧
      ¬ SameTables s.buddy (pageRefDec s.buddy p) := by
  have hs := (h.inv hfit).2
  obtain ⟨hroot, hsame⟩ := buddyFree_free_root hs.size hs.tree hp hfree hzero
  rw [pageRefDec_zero hzero]
  refine ⟨?_, hroot, hroot, hsame, hsame⟩
  rw [hs.size, hs.tree.root]
  exact longest_le ..

/-- In a memory of four pages the tables take one page. -/
theorem four_pages : ∃ b, buddyInit (2 ^ 2 * PGSIZE) VM_START = some (b, freePageStart 2 VM_START) ∧ Reserved 2 1 b ∧
    pageFree b 1 = true ∧ b.refCnt 1 = 0 := by
  have hfit : Fits 2 VM_START := ⟨by decide, by decide⟩
  obtain ⟨b, hb, hres⟩ := buddyInit_spec hfit
  refine ⟨b, hb, hres, (pageFree_iff hres.size hres.tree (by decide)).mpr fun c hc hcov => ?_, (hres.refCnt 1).trans (if_neg ?_)⟩
  · exact absurd (reservedBlocks_covers.mp ⟨c, hc, hcov⟩).1 (by decide)
  · decide

theorem stray_release_four_pages : ∃ s, AllocReach (2 ^ 2 * PGSIZE) VM_START (freePageStart 2 VM_START) s ∧
    (pageRefDec s.buddy 1).bitmap 0 = 2 * s.buddy.size := by
  obtain ⟨b, hb, hres, hfree, hzero⟩ := four_pages
  have hstray := stray_release ⟨by decide, by decide⟩ (.init hb) (p := 1) (by rw [hres.size]; decide) hfree hzero
  exact ⟨_, .init hb, hstray.2.2.1⟩

/-- Page 1 of four, released right after `buddy_init`. -/
theorem stray_release_harms : ¬ ∀ s, AllocReach (2 ^ 2 * PGSIZE) VM_START (freePageStart 2 VM_START) s →
    ∀ p, p < s.buddy.size → pageFree s.buddy p = true → s.buddy.refCnt p = 0 → SameTables s.buddy (pageRefDec s.buddy p) := by
  intro hall
  obtain ⟨b, hb, hres, hfree, hzero⟩ := four_pages
  have hlt : 1 < b.size := by
    rw [hres.size]
    decide
  have hsame := hall ⟨b, fun _ => none⟩ (.init hb) 1 hlt hfree hzero
  rw [pageRefDec_zero hzero] at hsame
  exact (buddyFree_free_root hres.size hres.tree hlt hfree hzero).2 hsame

end Stray

section Oversized
variable {k ekernel fps n i d : Nat} {L : Set Block} {bitmap : Nat → Nat} {b : Buddy} {s : Allocator}

/-- The `2 ^ j` pages from `q * 2 ^ j` on are free. -/
def FreeBlock (b : Buddy) (j q : Nat) : Prop :=
  (q + 1) * 2 ^ j ≤ b.size ∧ ∀ x, q * 2 ^ j ≤ x → x < (q + 1) * 2 ^ j → pageFree b x = true

/-- Entries of `bitmap` that the descent of `buddy_alloc` reads. -/
def descendReads (bitmap : Nat → Nat) (nrpages : Nat) : Nat → Nat → Nat → List Nat
  | 0, _, _ => []
  | fuel + 1, index, nodeSize =>
      if nodeSize = nrpages then []
      else if nrpages ≤ bitmap (leftLeaf index) then
        leftLeaf index :: descendReads bitmap nrpages fuel (leftLeaf index) (nodeSize / 2)
      else leftLeaf index :: descendReads bitmap nrpages fuel (rightLeaf index) (nodeSize / 2)

/-- Entries that the `while` loop of `buddy_alloc` reads or writes. -/
def updateIndices : Nat → Nat → List Nat
  | 0, _ => []
  | fuel + 1, index =>
      if index = 0 then []
      else parent index :: leftLeaf (parent index) :: rightLeaf (parent index) :: updateIndices fuel (parent index)

/-- Entries of `bitmap` and of `ref_cnt` that `buddy_alloc` uses. -/
def allocIndices (b : Buddy) (nrpages : Nat) : List Nat × List Nat :=
  let nrpages :=
    if nrpages ≤ 0 then 1 else if !isPowerOf2 nrpages then fixsize nrpages else nrpages
  if b.bitmap 0 < nrpages then ([0], [])
  else
    match allocDescend b.bitmap nrpages 66 0 b.size with
    | none => ([], [])
    | some (index, nodeSize) =>
        (0 :: descendReads b.bitmap nrpages 66 0 b.size ++ index :: updateIndices index index,
          [((index + 1) * nodeSize + (2 ^ 64 - b.size)) % 2 ^ 64])

/-- The request fails, changes nothing, and stays inside the tables. -/
structure FailsCleanly (b : Buddy) (n : Nat) : Prop where
  result : buddyAlloc b n = some (0, b)
  bitmap_lt : ∀ i ∈ (allocIndices b n).1, i < 2 * b.size - 1
  refCnt_lt : ∀ i ∈ (allocIndices b n).2, i < b.size

theorem freeBlock_iff (hsize : b.size = 2 ^ k) (ht : Tree k L b.bitmap) {j q : Nat} :
    FreeBlock b j q ↔ InTree k ⟨j, q⟩ ∧ FreeRun L ⟨j, q⟩ := by
  have hpos := Nat.two_pow_pos j
  have hcovers : ∀ x, (⟨j, q⟩ : Block).Covers x ↔ q * 2 ^ j ≤ x ∧ x < (q + 1) * 2 ^ j := fun x => by
    rw [Block.covers_iff, Nat.succ_mul]
    rfl
  have hin : (q + 1) * 2 ^ j ≤ 2 ^ k ↔ InTree k ⟨j, q⟩ := by
    constructor
    · intro hle
      have hjk : j ≤ k := by
        refine (Nat.pow_le_pow_iff_right (show 1 < 2 by decide)).mp ?_
        calc 2 ^ j = 1 * 2 ^ j := (Nat.one_mul _).symm
          _ ≤ (q + 1) * 2 ^ j := Nat.mul_le_mul_right _ (Nat.le_add_left ..)
          _ ≤ 2 ^ k := hle
      have hsplit : 2 ^ (k - j) * 2 ^ j = 2 ^ k := by rw [← Nat.pow_add]; congr 1; omega
      rw [← hsplit] at hle
      exact ⟨hjk, Nat.le_of_mul_le_mul_right hle hpos⟩
    · rintro ⟨hjk, hlt⟩
      have hsplit : 2 ^ (k - j) * 2 ^ j = 2 ^ k := by
        rw [← Nat.pow_add]
        congr 1
        exact Nat.sub_add_cancel hjk
      rw [← hsplit]
      exact Nat.mul_le_mul_right _ hlt
  rw [FreeBlock, hsize, hin]
  refine and_congr_right fun htree => ?_
  constructor
  · intro hfree x hx
    obtain ⟨hlo, hhi⟩ := (hcovers x).mp hx
    exact (pageFree_iff hsize ht (htree.covers_lt hx)).mp (hfree x hlo hhi)
  · intro hrun x hlo hhi
    have hx := (hcovers x).mpr ⟨hlo, hhi⟩
    exact (pageFree_iff hsize ht (htree.covers_lt hx)).mpr (hrun x hx)

/-- The root entry tells whether there is a free block of a given order. -/
theorem root_lt_iff (hsize : b.size = 2 ^ k) (ht : Tree k L b.bitmap) {j : Nat} :
    b.bitmap 0 < 2 ^ j ↔ ∀ q, ¬ FreeBlock b j q := by
  rw [ht.root]
  constructor
  · intro hlt q hq
    obtain ⟨htree, hrun⟩ := (freeBlock_iff hsize ht).mp hq
    have hle : 2 ^ j ≤ longest L k 0 :=
      (pow_le_longest_iff htree.1 (uncovered_root ht.inTree)).mpr ⟨q, within_root htree, hrun⟩
    omega
  · intro hno
    by_contra hle
    rw [Nat.not_lt] at hle
    by_cases hjk : j ≤ k
    · obtain ⟨r, hw, hrun⟩ := (pow_le_longest_iff hjk (uncovered_root ht.inTree)).mp hle
      exact hno r ((freeBlock_iff hsize ht).mpr ⟨InTree.of_within ⟨le_rfl, Nat.two_pow_pos _⟩ hw, hrun⟩)
    · have hlt : 2 ^ k < 2 ^ j := Nat.pow_lt_pow_right (by decide) (by omega)
      have := longest_le L k 0
      omega

/-- The size that `buddy_alloc` searches for is larger than the root entry. -/
theorem request_gt (hsize : b.size = 2 ^ k) (ht : Tree k L b.bitmap) (hbig : ∀ j q, FreeBlock b j q → 2 ^ j < n)
    (hle : n ≤ 2 ^ 63) : b.bitmap 0 < if n ≤ 0 then 1 else if !isPowerOf2 n then fixsize n else n := by
  rcases Nat.eq_zero_or_pos n with rfl | hpos
  · rw [if_pos le_rfl]
    exact (root_lt_iff hsize ht (j := 0)).mpr fun q hq => Nat.not_lt_zero _ (hbig 0 q hq)
  · rw [request_eq hpos hle]
    refine (root_lt_iff hsize ht).mpr fun q hq => ?_
    have hlt := hbig _ q hq
    have hge : n ≤ 2 ^ Nat.clog 2 n := Nat.le_pow_clog (by decide) n
    omega

theorem failsCleanly_of_le (hsize : b.size = 2 ^ k) (ht : Tree k L b.bitmap) (hbig : ∀ j q, FreeBlock b j q → 2 ^ j < n)
    (hle : n ≤ 2 ^ 63) : FailsCleanly b n := by
  have hgt := request_gt hsize ht hbig hle
  have hpos := Nat.two_pow_pos k
  have hindices : allocIndices b n = ([0], []) := if_pos hgt
  refine ⟨if_pos hgt, fun i hi => ?_, fun i hi => ?_⟩
  · rw [hindices] at hi
    obtain rfl := List.mem_singleton.mp hi
    omega
  · rw [hindices] at hi
    cases hi

theorem fixsize_big (hlo : 2 ^ 63 < n) (hhi : n < 2 ^ 64) : fixsize n = 0 := by
  have hpred : (n + (2 ^ 64 - 1)) % 2 ^ 64 = n - 1 := by omega
  have hne : n - 1 ≠ 0 := by omega
  have hlead : (n - 1).log2 = 63 := (Nat.log2_eq_iff hne).mpr (by omega)
  have hfill := (Rounding.filled_log2 hne).smear.smear.smear.smear.smear.smear.eq (by omega)
  simp only [fixsize, hpred]
  rw [hfill, hlead]
  decide

theorem isPowerOf2_big (hlo : 2 ^ 63 < n) (hhi : n < 2 ^ 64) : isPowerOf2 n = false := by
  by_contra hpow
  rw [Bool.not_eq_false, isPowerOf2, beq_iff_eq] at hpow
  obtain ⟨j, rfl⟩ := (Nat.and_sub_one_eq_zero_iff_isPowerOfTwo (by omega)).mp hpow
  have hj : 63 < j := (Nat.pow_lt_pow_iff_right (by decide)).mp hlo
  have hj' : j < 64 := (Nat.pow_lt_pow_iff_right (by decide)).mp hhi
  omega

/-- A request that is rounded to 0 goes to the left until the node size is 0, one level below the leaves. -/
theorem allocDescend_zero {fuel : Nat} (hfuel : d + 1 < fuel) :
    allocDescend bitmap 0 fuel (2 ^ i - 1) (2 ^ d) = some (2 ^ (i + d + 1) - 1, 0) := by
  have hleft : leftLeaf (2 ^ i - 1) = 2 ^ (i + 1) - 1 := by
    have := Nat.two_pow_pos i
    simp only [leftLeaf, Nat.pow_succ]
    omega
  induction d generalizing i fuel with
  | zero =>
      obtain ⟨fuel, rfl⟩ : ∃ m, fuel = m + 2 := ⟨fuel - 2, by omega⟩
      have hhalf : 2 ^ 0 / 2 = 0 := rfl
      rw [allocDescend, if_neg (by decide), if_pos (Nat.zero_le _), hleft, hhalf, allocDescend, if_pos rfl]
  | succ d ih =>
      obtain ⟨fuel, rfl⟩ : ∃ m, fuel = m + 1 := ⟨fuel - 1, by omega⟩
      have hhalf : 2 ^ (d + 1) / 2 = 2 ^ d := by
        rw [Nat.pow_succ]
        omega
      have hne : 2 ^ (d + 1) ≠ 0 := (Nat.two_pow_pos _).ne'
      rw [allocDescend, if_neg hne, if_pos (Nat.zero_le _), hleft, hhalf, ih (by omega), Nat.add_right_comm i 1 d]
      · rfl
      · have := Nat.two_pow_pos (i + 1)
        simp only [leftLeaf, Nat.pow_succ]
        omega

/-- A request above `2 ^ 63` does not fail. -/
theorem buddyAlloc_big (hsize : b.size = 2 ^ k) (hk : k ≤ 63) (hlo : 2 ^ 63 < n) (hhi : n < 2 ^ 64) :
    ∃ b', buddyAlloc b n = some (2 ^ 64 - 2 ^ k, b') := by
  have h63 : 2 ^ k ≤ 2 ^ 63 := Nat.pow_le_pow_right (by decide) hk
  have hpos := Nat.two_pow_pos k
  have hdown : allocDescend b.bitmap 0 66 (2 ^ 0 - 1) (2 ^ k) = some (2 ^ (0 + k + 1) - 1, 0) := allocDescend_zero (by omega)
  rw [Nat.pow_zero, Nat.sub_self] at hdown
  have hpfn : ((2 ^ (0 + k + 1) - 1 + 1) * 0 + (2 ^ 64 - 2 ^ k)) % 2 ^ 64 = 2 ^ 64 - 2 ^ k := by
    rw [Nat.mul_zero, Nat.zero_add]
    exact Nat.mod_eq_of_lt (by omega)
  have hreq : (if n ≤ 0 then 1 else if !isPowerOf2 n then fixsize n else n) = 0 := by
    rw [if_neg (by omega), isPowerOf2_big hlo hhi, Bool.not_false, if_pos rfl, fixsize_big hlo hhi]
  simp only [buddyAlloc, hreq, hsize]
  rw [if_neg (Nat.not_lt_zero _), hdown]
  exact ⟨_, congrArg some (Prod.ext hpfn rfl)⟩

theorem FreeBlock.le_size {j q : Nat} (h : FreeBlock b j q) : 2 ^ j ≤ b.size := by
  refine le_trans ?_ h.1
  rw [Nat.succ_mul]
  exact Nat.le_add_left ..

theorem not_failsCleanly (hsize : b.size = 2 ^ k) (hk : k ≤ 63) (hlo : 2 ^ 63 < n) (hhi : n < 2 ^ 64) : ¬ FailsCleanly b n := by
  intro hfail
  have h63 : 2 ^ k ≤ 2 ^ 63 := Nat.pow_le_pow_right (by decide) hk
  obtain ⟨b', hb'⟩ := buddyAlloc_big hsize hk hlo hhi
  have hres := hfail.result
  rw [hb'] at hres
  have hzero := congrArg Prod.fst (Option.some.inj hres)
  dsimp only at hzero
  omega

/-- A request larger than every free block fails as it should exactly when it is at most `2 ^ 63`. -/
theorem oversized_request (hfit : Fits k ekernel) (h : AllocReach (2 ^ k * PGSIZE) ekernel fps s) (hn : n < 2 ^ 64)
    (hbig : ∀ j q, FreeBlock s.buddy j q → 2 ^ j < n) : FailsCleanly s.buddy n ↔ n ≤ 2 ^ 63 := by
  have hs := (h.inv hfit).2
  have hk := hfit.le
  refine ⟨fun hfail => ?_, failsCleanly_of_le hs.size hs.tree hbig⟩
  by_contra hlo
  exact not_failsCleanly hs.size (by omega) (Nat.lt_of_not_le hlo) hn hfail

theorem oversized_request_kernel : ∃ s, AllocReach (2 ^ 15 * PGSIZE) VM_START (freePageStart 15 VM_START) s ∧
    FailsCleanly s.buddy (2 ^ 63) := by
  have hfit : Fits 15 VM_START := ⟨by decide, by decide⟩
  obtain ⟨b, hb, hres⟩ := buddyInit_spec hfit
  have hsize := hres.size
  refine ⟨_, .init hb, (oversized_request hfit (.init hb) (by decide) fun j q hq => ?_).mpr le_rfl⟩
  have hle := hq.le_size
  dsimp only at hle
  omega

/-- `2 ^ 63 + 1` pages, requested right after `buddy_init`. -/
theorem oversized_request_leaves : ¬ ∀ s, AllocReach (2 ^ 15 * PGSIZE) VM_START (freePageStart 15 VM_START) s →
    ∀ n, n < 2 ^ 64 → (∀ j q, FreeBlock s.buddy j q → 2 ^ j < n) → FailsCleanly s.buddy n := by
  intro hall
  have hfit : Fits 15 VM_START := ⟨by decide, by decide⟩
  obtain ⟨b, hb, hres⟩ := buddyInit_spec hfit
  have hsize := hres.size
  refine not_failsCleanly hsize (by decide) (n := 2 ^ 63 + 1) (by decide) (by decide) ?_
  refine hall ⟨b, fun _ => none⟩ (.init hb) _ (by decide) fun j q hq => ?_
  have hle := hq.le_size
  dsimp only at hle
  omega

end Oversized

section GiveBack
variable {k ekernel fps n va p : Nat} {a : Allocator} {s t : KState} {b : Buddy}

/-- The memory is given back: the tables are those before the request, and the address is handed out again. -/
def GivenBack (s t : KState) (n va : Nat) : Prop :=
  SameTables s.buddy t.buddy ∧ ∃ u, (allocPages n).run t = .ok va u

theorem allocPages_ok (hrun : (allocPages n).run s = .ok va t) :
    ∃ p b, buddyAlloc s.buddy n = some (p, b) ∧ va = (if p = 0 then 0 else PA2VA (PFN2PHYS p)) ∧ t = s.withBuddy b := by
  have hends : Ends (allocPages n) s (fun va t => ∃ p b, buddyAlloc s.buddy n = some (p, b) ∧
      va = (if p = 0 then 0 else PA2VA (PFN2PHYS p)) ∧ t = s.withBuddy b) fun _ _ => True := by
    rw [allocPages]
    refine ends_bind.mpr (ends_get.mpr ?_)
    cases hres : buddyAlloc s.buddy n with
    | none => exact ends_throw.mpr trivial
    | some x =>
        obtain ⟨p, b⟩ := x
        exact ends_bind.mpr (ends_modify.mpr (ends_pure.mpr ⟨p, b, rfl, rfl, rfl⟩))
  exact hends.of_ok hrun

/-- The address of a page leads back to the page, if the page is in the managed memory. -/
theorem page_of_address (hk : k ≤ 32) (hin : PHYS2PFN (VA2PA (PA2VA (PFN2PHYS p))) < 2 ^ k)
    (hbig : p < 2 ^ 51 ∨ p = 2 ^ 64 - 2 ^ k) : PHYS2PFN (VA2PA (PA2VA (PFN2PHYS p))) = p ∧ p < 2 ^ k := by
  have hpow : 2 ^ k ≤ 2 ^ 32 := Nat.pow_le_pow_right (by decide) hk
  have hpos := Nat.two_pow_pos k
  have hback : VA2PA (PA2VA (PFN2PHYS p)) = PFN2PHYS p := VA2PA_PA2VA (Nat.mod_lt _ (by decide))
  rw [hback] at hin ⊢
  rcases hbig with hsmall | rfl
  · rw [PHYS2PFN_PFN2PHYS hsmall] at hin ⊢
    exact ⟨rfl, hin⟩
  · generalize 2 ^ k = m at *
    simp only [PHYS2PFN, PFN2PHYS, PHY_START, Nat.shiftLeft_eq, Nat.shiftRight_eq_div_pow] at hin
    omega

/-- A page that is handed out had no references and has one. -/
theorem alloc_refCnt (hfit : Fits k ekernel) (h : AllocReach (2 ^ k * PGSIZE) ekernel fps a)
    (hn : n < 2 ^ 64) (hres : buddyAlloc a.buddy n = some (p, b)) (hne : p ≠ 0) :
    p = 2 ^ 64 - 2 ^ k ∨ p < 2 ^ k ∧ a.buddy.refCnt p = 0 ∧ b.refCnt p = 1 := by
  have hs := (h.inv hfit).2
  have hk := hfit.le
  have hone : ∀ m, 1 ≤ m → m ≤ 2 ^ k → buddyAlloc a.buddy m = some (p, b) →
      p < 2 ^ k ∧ a.buddy.refCnt p = 0 ∧ b.refCnt p = 1 := by
    intro m hm hle hres
    rcases hs.alloc_spec hfit.reservedPages_pos (by omega) hm hle with ⟨c, b', he, -, -, htree, hrun, -, -, hinv⟩ | ⟨he, -⟩
    · rw [hres] at he
      cases he
      have hlt := htree.covers_lt c.covers_first
      refine ⟨hlt, hs.refCnt_uncovered (hrun _ c.covers_first), ?_⟩
      have hcount : b.refCnt c.first = expectedRefs k _ (Function.update a.live c.first (some ⟨m, 1⟩)) c.first := hinv.refCnt _
      rw [hcount, expectedRefs_some]
    · rw [hres] at he
      cases he
      exact absurd rfl hne
  rcases Nat.eq_zero_or_pos n with rfl | hpos
  · exact .inr (hone 1 le_rfl Nat.one_le_two_pow hres)
  by_cases hle : n ≤ 2 ^ k
  · exact .inr (hone n hpos hle hres)
  by_cases hbig : n ≤ 2 ^ 63
  · have hfail := (failsCleanly_of_le hs.size hs.tree (fun j q hq => ?_) hbig).result
    · rw [hres] at hfail
      cases hfail
      exact absurd rfl hne
    · have hblock := hq.le_size
      rw [hs.size] at hblock
      omega
  · obtain ⟨b', hb'⟩ := buddyAlloc_big hs.size (by omega) (Nat.lt_of_not_le hbig) hn
    rw [hres] at hb'
    exact .inl (congrArg Prod.fst (Option.some.inj hb'))

/-- A block that has just been handed out is not freed, as it has its reference. -/
theorem allocated_kept (hfit : Fits k ekernel) (h : AllocReach (2 ^ k * PGSIZE) ekernel fps a) (hs : s.buddy = a.buddy)
    (hn : n < 2 ^ 64) (hrun : (allocPages n).run s = .ok va t) (hva : va ≠ 0)
    (hin : PHYS2PFN (VA2PA va) < s.buddy.size) : (freePages va).run t = .ok () t ∧ ¬ GivenBack s t n va := by
  obtain ⟨p, b, hres, rfl, rfl⟩ := allocPages_ok hrun
  have hne : p ≠ 0 := fun h0 => hva (if_pos h0)
  rw [if_neg hne] at hin ⊢
  have hsize := (h.inv hfit).2.size
  rw [hs, hsize] at hin
  rw [hs] at hres
  have hk := hfit.le
  have hpow : 2 ^ k ≤ 2 ^ 32 := Nat.pow_le_pow_right (by decide) hk
  have hpos := Nat.two_pow_pos k
  have hcases := alloc_refCnt hfit h hn hres hne
  obtain ⟨hpage, hlt⟩ := page_of_address hk hin (hcases.symm.imp_left fun hc => hc.1.trans_le (hpow.trans (by decide)))
  obtain ⟨-, hzero, hone⟩ := hcases.resolve_left (by omega)
  have hkeep : buddyFree b p = b := if_pos (by omega)
  have hmodify : (freePages (PA2VA (PFN2PHYS p))).run (s.withBuddy b) =
      .ok () (s.withBuddy (buddyFree b (PHYS2PFN (VA2PA (PA2VA (PFN2PHYS p)))))) := rfl
  rw [hpage, hkeep] at hmodify
  refine ⟨hmodify, fun hback => ?_⟩
  have hsame := hback.1.2 p (by rw [hs, hsize]; exact hlt)
  rw [hs, hzero] at hsame
  exact absurd (hone.symm.trans hsame) (by decide)

/-- `free_pages` and `kfree` give back no block, in any state. -/
theorem freePages_keeps (hfit : Fits k ekernel) (h : AllocReach (2 ^ k * PGSIZE) ekernel fps a) (hs : s.buddy = a.buddy)
    (hn : n < 2 ^ 64) (hrun : (allocPages n).run s = .ok va t) (hva : va ≠ 0)
    (hin : PHYS2PFN (VA2PA va) < s.buddy.size) :
    (freePages va).run t = .ok () t ∧ (kfree va).run t = .ok () t ∧ ¬ GivenBack s t n va := by
  obtain ⟨hfree, hkept⟩ := allocated_kept hfit h hs hn hrun hva hin
  exact ⟨hfree, hfree, hkept⟩

/-- In a memory of four pages, `alloc_pages(2)` hands out the upper half. -/
theorem four_pages_alloc : ∃ b t, AllocReach (2 ^ 2 * PGSIZE) VM_START (freePageStart 2 VM_START) ⟨b, fun _ => none⟩ ∧
    (allocPages 2).run (boardStart b) = .ok (PA2VA (PFN2PHYS 2)) t ∧ b.size = 4 := by
  obtain ⟨b, hb, hres, -⟩ := four_pages
  have halloc : ((buddyInit (2 ^ 2 * PGSIZE) VM_START).bind fun x =>
      (buddyAlloc x.1 2).map Prod.fst) = some 2 := by decide
  rw [hb] at halloc
  obtain ⟨⟨p, b'⟩, he, hp⟩ := Option.map_eq_some_iff.mp halloc
  obtain rfl : p = 2 := hp
  refine ⟨b, (boardStart b).withBuddy b', .init hb, ?_, hres.size⟩
  have hends : Ends (allocPages 2) (boardStart b) (fun va t => va = PA2VA (PFN2PHYS 2) ∧ t = (boardStart b).withBuddy b')
      fun _ _ => False := by
    rw [allocPages]
    refine ends_bind.mpr (ends_get.mpr ?_)
    have hstart : buddyAlloc (boardStart b).buddy 2 = some (2, b') := he
    rw [hstart]
    exact ends_bind.mpr (ends_modify.mpr (ends_pure.mpr ⟨rfl, rfl⟩))
  exact hends.run_eq

theorem freePages_keeps_four_pages : ∃ b t, (allocPages 2).run (boardStart b) = .ok (PA2VA (PFN2PHYS 2)) t ∧
    (freePages (PA2VA (PFN2PHYS 2))).run t = .ok () t ∧ ¬ GivenBack (boardStart b) t 2 (PA2VA (PFN2PHYS 2)) := by
  obtain ⟨b, t, hreach, hrun, hsize⟩ := four_pages_alloc
  have hin : PHYS2PFN (VA2PA (PA2VA (PFN2PHYS 2))) < (boardStart b).buddy.size := (by decide : 2 < 4).trans_le hsize.ge
  obtain ⟨hfree, -, hkept⟩ := freePages_keeps ⟨by decide, by decide⟩ hreach rfl (by decide) hrun (by decide) hin
  exact ⟨b, t, hrun, hfree, hkept⟩

/-- Two of four pages, given to `free_pages` right after `alloc_pages(2)`. -/
theorem freePages_loses : ¬ ∀ (a : Allocator) (s t u : KState) (n va : Nat),
    AllocReach (2 ^ 2 * PGSIZE) VM_START (freePageStart 2 VM_START) a → s.buddy = a.buddy → n < 2 ^ 64 →
    (allocPages n).run s = .ok va t → va ≠ 0 → PHYS2PFN (VA2PA va) < s.buddy.size →
    (freePages va).run t = .ok () u → GivenBack s u n va := by
  intro hall
  obtain ⟨b, t, hreach, hrun, hsize⟩ := four_pages_alloc
  have hin : PHYS2PFN (VA2PA (PA2VA (PFN2PHYS 2))) < (boardStart b).buddy.size := (by decide : 2 < 4).trans_le hsize.ge
  obtain ⟨hfree, hkept⟩ := allocated_kept ⟨by decide, by decide⟩ hreach rfl (by decide) hrun (by decide) hin
  exact hkept (hall _ _ _ _ _ _ hreach rfl (by decide) hrun (by decide) hin hfree)

end GiveBack

section Reserve
variable {k ekernel h q : Nat} {L : Set Block} {b : Buddy}

/-- `v` is the size of the largest free block in the node of order `h` at `q`, or 0 if all its pages are taken. -/
structure LargestFree (b : Buddy) (h q v : Nat) : Prop where
  reached : v = 0 ∨ ∃ j r, (⟨j, r⟩ : Block).Within ⟨h, q⟩ ∧ FreeBlock b j r ∧ v = 2 ^ j
  largest : ∀ j r, (⟨j, r⟩ : Block).Within ⟨h, q⟩ → FreeBlock b j r → 2 ^ j ≤ v

theorem longest_pow (L : Set Block) (h q : Nat) : longest L h q = 0 ∨ ∃ j, j ≤ h ∧ longest L h q = 2 ^ j := by
  induction h generalizing q with
  | zero =>
      rw [longest]
      split
      · exact .inl rfl
      · exact .inr ⟨0, le_rfl, rfl⟩
  | succ h ih =>
      rw [longest]
      have hbelow : ∀ p, longest L h p = 0 ∨ ∃ j, j ≤ h + 1 ∧ longest L h p = 2 ^ j := by
        intro p
        rcases ih p with hzero | ⟨j, hj, hv⟩
        · exact .inl hzero
        · exact .inr ⟨j, hj.trans (Nat.le_succ h), hv⟩
      split
      · exact .inl rfl
      split
      · exact .inr ⟨h + 1, le_rfl, rfl⟩
      rcases max_choice (longest L h (2 * q)) (longest L h (2 * q + 1)) with he | he
      · rw [he]
        exact hbelow _
      · rw [he]
        exact hbelow _

/-- An entry that no block in use covers is the size of the largest free block of its node. -/
theorem Tree.largestFree (hsize : b.size = 2 ^ k) (ht : Tree k L b.bitmap) (hh : h ≤ k) (hq : q < 2 ^ (k - h))
    (hu : Uncovered L ⟨h, q⟩) : LargestFree b h q (b.bitmap (idx k h q)) := by
  have hnode : InTree k ⟨h, q⟩ := ⟨hh, hq⟩
  rw [ht.entry h q hh hq]
  constructor
  · rcases longest_pow L h q with hzero | ⟨j, hj, hv⟩
    · exact .inl hzero
    · obtain ⟨r, hw, hrun⟩ := (pow_le_longest_iff hj hu).mp hv.ge
      exact .inr ⟨j, r, hw, (freeBlock_iff hsize ht).mpr ⟨hnode.of_within hw, hrun⟩, hv⟩
  · intro j r hw hfree
    exact (pow_le_longest_iff hw.1 hu).mpr ⟨r, hw, ((freeBlock_iff hsize ht).mp hfree).2⟩

/-- `buddy_init` takes exactly the frames of the kernel and of its two tables. -/
theorem buddyInit_reserves (hfit : Fits k ekernel) :
    ∃ b fps, buddyInit (2 ^ k * PGSIZE) ekernel = some (b, fps) ∧ b.size = 2 ^ k ∧
      fps = ekernel + 2 * 2 ^ k * 8 + 2 ^ k * 8 ∧
      (∀ x, x < 2 ^ k → (KernelPage fps x → b.refCnt x = 1) ∧ (¬ KernelPage fps x → b.refCnt x = 0) ∧
        (pageFree b x = true ↔ ¬ KernelPage fps x)) ∧
      ∀ h q, h ≤ k → q < 2 ^ (k - h) → LargestFree b h q (b.bitmap (idx k h q)) := by
  obtain ⟨b, hb, hres⟩ := buddyInit_spec hfit
  refine ⟨b, freePageStart k ekernel, hb, hres.size, ?_, fun x hx => ?_, fun h q hh hq => ?_⟩
  · simp only [freePageStart]
    omega
  · have hkernel := kernelPage_iff hfit hx
    refine ⟨fun hker => (hres.refCnt x).trans (if_pos ⟨hkernel.mp hker, hx⟩),
      fun hker => (hres.refCnt x).trans (if_neg fun hr => hker (hkernel.mpr hr.1)), ?_⟩
    rw [pageFree_iff hres.size hres.tree hx, hkernel]
    constructor
    · intro hno hr
      obtain ⟨c, hc, hcov⟩ := reservedBlocks_covers.mpr ⟨hr, hx⟩
      exact hno c hc hcov
    · intro hr c hc hcov
      exact hr (reservedBlocks_covers.mp ⟨c, hc, hcov⟩).1
  · -- the blocks in use are single pages, so none lies above another node
    refine Tree.largestFree hres.size hres.tree hh hq fun c hc hw => ?_
    exact (hw.eq_of_order (hc.1.trans_le (Nat.zero_le _))).symm

/-- In a memory of `PHY_SIZE` bytes with an empty kernel image. -/
theorem buddyInit_reserves_kernel : ∃ b fps, buddyInit PHY_SIZE VM_START = some (b, fps) ∧ b.refCnt 0 = 1 ∧
    pageFree b 192 = true := by
  have hfit : Fits 15 VM_START := ⟨by decide, by decide⟩
  obtain ⟨b, fps, hb, -, rfl, hpages, -⟩ := buddyInit_reserves hfit
  have hkernel : PFN2PHYS 0 < VA2PA (VM_START + 2 * 2 ^ 15 * 8 + 2 ^ 15 * 8) := by decide
  have hrest : ¬ PFN2PHYS 192 < VA2PA (VM_START + 2 * 2 ^ 15 * 8 + 2 ^ 15 * 8) := by decide
  exact ⟨b, _, hb, (hpages 0 (by decide)).1 hkernel, (hpages 192 (by decide)).2.2.mpr hrest⟩

end Reserve

end ZjuOs
