import ZjuOs.BuddyTables

/-! One specification for each operation of the allocator, over the set of blocks in use. -/
namespace ZjuOs
open BuddyTree

theorem fixsize_eq {n : Nat} (hn : 2 ≤ n) (hlt : n ≤ 2 ^ 63) : fixsize n = 2 ^ Nat.clog 2 n := by
  have hpred : (n + (2 ^ 64 - 1)) % 2 ^ 64 = n - 1 := by omega
  have hne : n - 1 ≠ 0 := by omega
  have hlead : (n - 1).log2 < 63 := (Nat.log2_lt hne).mpr (by omega)
  have hfill := (Rounding.filled_log2 hne).smear.smear.smear.smear.smear.smear.eq (by omega)
  have hround := Rounding.two_pow_log2_succ hn
  have hbound : 2 ^ Nat.clog 2 n < 2 ^ 64 := by
    rw [← hround]
    exact Nat.pow_lt_pow_right (by omega) (by omega)
  have hpos := Nat.two_pow_pos (Nat.clog 2 n)
  simp only [fixsize, hpred]
  rw [hfill, hround, Nat.sub_add_cancel hpos, Nat.mod_eq_of_lt hbound]

/-- The size that `buddy_alloc` searches for. -/
theorem request_eq {n : Nat} (hn : 1 ≤ n) (hlt : n ≤ 2 ^ 63) :
    (if n ≤ 0 then 1 else if !isPowerOf2 n then fixsize n else n) = 2 ^ Nat.clog 2 n := by
  rw [if_neg (by omega)]
  by_cases hp : n &&& (n - 1) = 0
  · rw [if_neg (by simp [isPowerOf2, hp])]
    exact Rounding.clog_two_pow_of_and_eq_zero (by omega) hp
  · have hne : n ≠ 1 := by rintro rfl; simp at hp
    rw [if_pos (by simp [isPowerOf2, hp]), fixsize_eq (by omega) hlt]

section Ops
variable {k : Nat} {L : Set Block} {b : Buddy}

theorem buddyAlloc_spec (hsize : b.size = 2 ^ k) (ht : Tree k L b.bitmap) (hk : k ≤ 63) {n : Nat}
    (hn : 1 ≤ n) (hle : n ≤ 2 ^ k) :
    (∃ r bitmap, buddyAlloc b n =
        some (r * 2 ^ Nat.clog 2 n,
          { b with bitmap, refCnt := Function.update b.refCnt (r * 2 ^ Nat.clog 2 n) 1 }) ∧
      InTree k ⟨Nat.clog 2 n, r⟩ ∧ FreeRun L ⟨Nat.clog 2 n, r⟩ ∧
      (∀ r', InTree k ⟨Nat.clog 2 n, r'⟩ → FreeRun L ⟨Nat.clog 2 n, r'⟩ → r ≤ r') ∧
      Tree k (Set.insert ⟨Nat.clog 2 n, r⟩ L) bitmap) ∨
    (buddyAlloc b n = some (0, b) ∧
      ∀ r, InTree k ⟨Nat.clog 2 n, r⟩ → ¬ FreeRun L ⟨Nat.clog 2 n, r⟩) := by
  have h63 : 2 ^ k ≤ 2 ^ 63 := Nat.pow_le_pow_right (by omega) hk
  have hreq := request_eq hn (hle.trans h63)
  have hj : Nat.clog 2 n ≤ k := Nat.clog_le_of_le_pow hle
  have hu := uncovered_root ht.inTree
  have hiff := pow_le_longest_iff hj hu
  simp only [buddyAlloc, hreq, hsize, ht.root]
  by_cases hroot : 2 ^ Nat.clog 2 n ≤ longest L k 0
  · left
    obtain ⟨r, he, hw, hf, hmin⟩ :=
      allocDescend_spec ht.entry (n := 66) hj (by omega) ⟨le_rfl, Nat.two_pow_pos _⟩ hu hroot
    have hin : InTree k ⟨Nat.clog 2 n, r⟩ := InTree.of_within ⟨le_rfl, Nat.two_pow_pos _⟩ hw
    rw [idx_root] at he
    rw [if_neg (by omega), he]
    refine ⟨r, _, ?_, hin, hf, fun r' hr' => hmin r' (within_root hr'), ht.insert hin hf⟩
    simp only [idx_first hj hk hin.2]
  · right
    rw [if_pos (by omega)]
    exact ⟨rfl, fun r hr hf => hroot (hiff.mpr ⟨r, within_root hr, hf⟩)⟩

theorem buddyFree_spec (hsize : b.size = 2 ^ k) (ht : Tree k L b.bitmap) {c : Block} (hc : c ∈ L)
    (hzero : b.refCnt c.first = 0) :
    ∃ bitmap, buddyFree b c.first = { b with bitmap } ∧ Tree k (L \ {c}) bitmap := by
  have hct := ht.inTree c hc
  have hleaf : (⟨0, c.first⟩ : Block).Within c :=
    Block.within_of_covers (p := c.first) (by simp [Block.Covers]) c.covers_first (Nat.zero_le _)
  have hk : k < 2 ^ k := Nat.lt_two_pow_self
  have hfuel : c.order < idx k 0 c.first + 1 := by
    have := hct.1
    simp only [idx, Nat.sub_zero]
    omega
  have hclimb := freeClimb_spec ht hc hleaf (Nat.lt_of_le_of_lt (Nat.sub_le ..) hfuel)
  simp only [Nat.pow_zero] at hclimb
  refine ⟨_, ?_, ht.erase hc⟩
  simp only [buddyFree, hzero, hsize, idx_leaf, ne_eq, not_true_eq_false, if_false, hclimb]

end Ops

section Init

theorem initNodes_apply {k n i : Nat} {m : Nat → Nat} (hn : i + n ≤ 2 ^ (k + 1) - 1) (j : Nat) :
    initNodes n i (2 ^ (k + 1 - Nat.clog 2 (i + 1))) m j =
      if i ≤ j ∧ j < i + n then 2 ^ (k - (j + 1).log2) else m j := by
  induction n generalizing i m with
  | zero => rw [initNodes, if_neg (by omega)]
  | succ n ih =>
      -- the value written at `i`, and the size carried to `i + 1`
      have hnode : (if isPowerOf2 (i + 1) then 2 ^ (k + 1 - Nat.clog 2 (i + 1)) / 2
            else 2 ^ (k + 1 - Nat.clog 2 (i + 1))) = 2 ^ (k - (i + 1).log2) ∧
          2 ^ (k - (i + 1).log2) = 2 ^ (k + 1 - Nat.clog 2 (i + 1 + 1)) := by
        have hlo : 2 ^ (i + 1).log2 ≤ i + 1 := Nat.log2_self_le (by omega)
        have hhi : i + 1 < 2 ^ ((i + 1).log2 + 1) := Nat.lt_log2_self
        have hlev : (i + 1).log2 ≤ k := by
          by_contra hgt
          have : 2 ^ (k + 1) ≤ 2 ^ (i + 1).log2 := Nat.pow_le_pow_right (by omega) (by omega)
          omega
        have hnext : Nat.clog 2 (i + 1 + 1) = (i + 1).log2 + 1 :=
          le_antisymm (Nat.clog_le_of_le_pow (by omega))
            ((Nat.lt_clog_iff_pow_lt (by omega)).mpr (by omega))
        refine ⟨?_, by rw [hnext]; congr 1; omega⟩
        by_cases hp : i + 1 &&& (i + 1 - 1) = 0
        · have hpow := Rounding.clog_two_pow_of_and_eq_zero (by omega) hp
          have hlog : (i + 1).log2 = Nat.clog 2 (i + 1) := by
            refine (Nat.log2_eq_iff (by omega)).mpr ⟨hpow.ge, ?_⟩
            rw [Nat.pow_succ]
            omega
          have hsplit : k + 1 - Nat.clog 2 (i + 1) = (k - (i + 1).log2) + 1 := by omega
          rw [if_pos (by simp only [isPowerOf2, hp]; rfl), hsplit, Nat.pow_succ]
          omega
        · have hne : 2 ^ (i + 1).log2 ≠ i + 1 := fun he =>
            hp ((Nat.and_sub_one_eq_zero_iff_isPowerOfTwo (by omega)).mpr ⟨_, he.symm⟩)
          have hsame : Nat.clog 2 (i + 1) = (i + 1).log2 + 1 :=
            le_antisymm (Nat.clog_le_of_le_pow (by omega))
              ((Nat.lt_clog_iff_pow_lt (by omega)).mpr (by omega))
          rw [if_neg (by simp [isPowerOf2]; exact hp), hsame]
          congr 1
          omega
      rw [initNodes, hnode.1, hnode.2, ih (by omega)]
      by_cases hj : j = i
      · subst hj
        rw [if_neg (by omega), if_pos (by omega), Function.update_self, hnode.2]
      · rw [Function.update_of_ne hj]
        by_cases hr : i + 1 ≤ j ∧ j < i + 1 + n
        · rw [if_pos hr, if_pos (by omega)]
        · rw [if_neg hr, if_neg (by omega)]

theorem tree_init (k : Nat) :
    Tree k ∅ (initNodes (2 * 2 ^ k - 1) 0 (2 ^ k * 2) fun _ => 0) := by
  have hpow : 2 ^ (k + 1) = 2 * 2 ^ k := by rw [Nat.pow_succ]; omega
  have hpos := Nat.two_pow_pos k
  have happ := initNodes_apply (k := k) (n := 2 * 2 ^ k - 1) (i := 0) (m := fun _ => 0) (by omega)
  have hstart : 2 ^ (k + 1 - Nat.clog 2 (0 + 1)) = 2 ^ k * 2 := by simp [Nat.pow_succ]
  rw [hstart] at happ
  refine ⟨fun _ hb => hb.elim, fun _ hb => hb.elim, ?_, ?_⟩
  · intro h q hh hq
    have hlt := idx_lt hh hq
    have hnode : (idx k h q + 1).log2 = k - h := by
      have := Nat.two_pow_pos (k - h)
      refine (Nat.log2_eq_iff (by omega)).mpr ⟨by simp only [idx]; omega, ?_⟩
      rw [Nat.pow_succ]
      simp only [idx]
      omega
    rw [happ, if_pos (by omega), hnode]
    refine Eq.trans ?_ (longest_eq_full_iff.mpr fun b hb => hb.elim).symm
    congr 1
    omega
  · rw [happ, if_neg (by omega)]

/-- The single pages `0, …, r - 1` that lie in the managed memory. -/
def reservedBlocks (k r : Nat) : Set Block := {b | b.order = 0 ∧ b.pos < r ∧ b.pos < 2 ^ k}

theorem freeRun_page_iff {L : Set Block} {p : Nat} :
    FreeRun L ⟨0, p⟩ ↔ ∀ b ∈ L, ¬ b.Covers p := by
  constructor
  · intro h b hb
    exact h p (by simp [Block.Covers]) b hb
  · intro h p' hp' b hb
    obtain rfl : p' = p := by simpa [Block.Covers] using hp'
    exact h b hb

theorem reservedBlocks_covers {k r p : Nat} :
    (∃ b ∈ reservedBlocks k r, b.Covers p) ↔ p < r ∧ p < 2 ^ k := by
  constructor
  · rintro ⟨b, ⟨ho, hr, hk⟩, hp⟩
    obtain rfl : p = b.pos := by simpa [Block.Covers, ho] using hp
    exact ⟨hr, hk⟩
  · rintro ⟨hr, hk⟩
    exact ⟨⟨0, p⟩, ⟨rfl, hr, hk⟩, by simp [Block.Covers]⟩

theorem insert_reservedBlocks {k r : Nat} (hr : r < 2 ^ k) :
    Set.insert ⟨0, r⟩ (reservedBlocks k r) = reservedBlocks k (r + 1) := by
  ext b
  constructor
  · rintro (rfl | ⟨ho, hlt, hk⟩)
    · exact ⟨rfl, Nat.lt_succ_self _, hr⟩
    · exact ⟨ho, by omega, hk⟩
  · rintro ⟨ho, hlt, hk⟩
    by_cases he : b.pos = r
    · exact .inl (Block.ext ho he)
    · exact .inr ⟨ho, by omega, hk⟩

theorem reservedBlocks_full {k r : Nat} (hr : 2 ^ k ≤ r) :
    reservedBlocks k (r + 1) = reservedBlocks k r := by
  ext b
  constructor
  · rintro ⟨ho, _, hk⟩
    exact ⟨ho, by omega, hk⟩
  · rintro ⟨ho, hlt, hk⟩
    exact ⟨ho, by omega, hk⟩

/-- The allocator after the first `r` rounds of the reservation loop. -/
structure Reserved (k r : Nat) (b : Buddy) : Prop where
  size : b.size = 2 ^ k
  tree : Tree k (reservedBlocks k r) b.bitmap
  refCnt : ∀ p, b.refCnt p = if p < r ∧ p < 2 ^ k then 1 else 0

theorem Reserved.next {k r : Nat} {b : Buddy} (h : Reserved k r b) (hk : k ≤ 63) :
    ∃ p b', buddyAlloc b 1 = some (p, b') ∧ Reserved k (r + 1) b' := by
  have hspec := buddyAlloc_spec h.size h.tree hk (n := 1) le_rfl Nat.one_le_two_pow
  simp only [Nat.clog_one_right, Nat.pow_zero, Nat.mul_one] at hspec
  rcases hspec with ⟨p, bitmap, he, hin, hf, hmin, ht⟩ | ⟨he, hnone⟩
  · have hp : p = r := by
      have hpk : p < 2 ^ k := hin.2
      have hge : r ≤ p := by
        by_contra hlt
        obtain ⟨c, hc, hcp⟩ := reservedBlocks_covers.mpr ⟨Nat.lt_of_not_le hlt, hpk⟩
        exact freeRun_page_iff.mp hf c hc hcp
      have hle : p ≤ r := hmin r ⟨Nat.zero_le _, by simp only [Nat.sub_zero]; omega⟩
        (freeRun_page_iff.mpr fun c hc hcp =>
          absurd (reservedBlocks_covers.mp ⟨c, hc, hcp⟩).1 (lt_irrefl _))
      omega
    subst hp
    have hpk : p < 2 ^ k := hin.2
    rw [insert_reservedBlocks hpk] at ht
    refine ⟨p, _, he, h.size, ht, ?_⟩
    intro q
    by_cases hq : q = p
    · subst hq
      simp only [Function.update_self]
      rw [if_pos (by omega)]
    · simp only [Function.update_of_ne hq, h.refCnt]
      by_cases hlt : q < p ∧ q < 2 ^ k
      · rw [if_pos hlt, if_pos (by omega)]
      · rw [if_neg hlt, if_neg (by omega)]
  · have hge : 2 ^ k ≤ r := by
      by_contra hlt
      refine hnone r ⟨Nat.zero_le _, by simp only [Nat.sub_zero]; omega⟩
        (freeRun_page_iff.mpr fun c hc hcp =>
          absurd (reservedBlocks_covers.mp ⟨c, hc, hcp⟩).1 (lt_irrefl _))
    refine ⟨0, b, he, h.size, by rw [reservedBlocks_full hge]; exact h.tree, ?_⟩
    intro q
    rw [h.refCnt]
    by_cases hq : q < 2 ^ k
    · rw [if_pos (by omega), if_pos (by omega)]
    · rw [if_neg (by omega), if_neg (by omega)]

theorem reserve_spec {k l r : Nat} (hk : k ≤ 63) (hr : ∀ p ≤ r, PFN2PHYS p < l ↔ p < r)
    {n pfn : Nat} {b : Buddy} (hb : Reserved k pfn b) (hle : pfn ≤ r) (hfuel : r - pfn ≤ n) :
    ∃ b', reserve l n pfn b = some b' ∧ Reserved k r b' := by
  induction n generalizing pfn b with
  | zero =>
      obtain rfl : pfn = r := by omega
      exact ⟨b, rfl, hb⟩
  | succ n ih =>
      rw [reserve]
      rcases Nat.lt_or_ge pfn r with hlt | hge
      · obtain ⟨p, b', he, hb'⟩ := hb.next hk
        rw [if_pos ((hr pfn hle).mpr hlt), he]
        exact ih hb' hlt (by omega)
      · obtain rfl : pfn = r := by omega
        rw [if_neg fun h => by have := (hr pfn le_rfl).mp h; omega]
        exact ⟨b, rfl, hb⟩

/-- The kernel image ends at or above `VM_START`, and both tables end inside the address space. -/
structure Fits (k ekernel : Nat) : Prop where
  start : VM_START ≤ ekernel
  room : ekernel + 24 * 2 ^ k < 2 ^ 64

theorem Fits.le {k ekernel : Nat} (h : Fits k ekernel) : k ≤ 32 := by
  obtain ⟨h1, h2⟩ := h
  by_contra hgt
  have : 2 ^ 33 ≤ 2 ^ k := Nat.pow_le_pow_right (by omega) (by omega)
  simp only [VM_START] at h1
  omega

/-- `free_page_start` after `buddy_init`. -/
def freePageStart (k ekernel : Nat) : Nat := ekernel + 24 * 2 ^ k

/-- Number of page frames that overlap `[PHY_START, VA2PA(free_page_start))`. -/
def reservedPages (k ekernel : Nat) : Nat :=
  (VA2PA (freePageStart k ekernel) - PHY_START + (PGSIZE - 1)) / PGSIZE

theorem Fits.reserved_iff {k ekernel : Nat} (h : Fits k ekernel) {p : Nat} (hp : p < 2 ^ 51) :
    PFN2PHYS p < VA2PA (freePageStart k ekernel) ↔ p < reservedPages k ekernel := by
  have h1 := h.start
  have h2 := h.room
  simp only [reservedPages, freePageStart, VA2PA, PFN2PHYS, PHY_START, PA2VA_OFFSET, VM_START, PGSIZE,
    Nat.shiftLeft_eq] at h1 ⊢
  omega

theorem Fits.reservedPages_pos {k ekernel : Nat} (h : Fits k ekernel) : 0 < reservedPages k ekernel := by
  have h1 := h.start
  have h2 := h.room
  have := Nat.two_pow_pos k
  simp only [reservedPages, freePageStart, VA2PA, PHY_START, PA2VA_OFFSET, VM_START, PGSIZE] at h1 ⊢
  omega

theorem buddyInit_spec {k ekernel : Nat} (h : Fits k ekernel) :
    ∃ b, buddyInit (2 ^ k * PGSIZE) ekernel = some (b, freePageStart k ekernel) ∧
      Reserved k (reservedPages k ekernel) b := by
  have hk := h.le
  have hpages : 2 ^ k * PGSIZE / PGSIZE = 2 ^ k := Nat.mul_div_cancel _ (by decide)
  have hpow : isPowerOf2 (2 ^ k) = true := by
    have hand : 2 ^ k &&& (2 ^ k - 1) = 0 :=
      (Nat.and_sub_one_eq_zero_iff_isPowerOfTwo (Nat.two_pow_pos k).ne').mpr ⟨k, rfl⟩
    rw [isPowerOf2, hand]
    rfl
  have hfps : ekernel + 2 * 2 ^ k * 8 + 2 ^ k * 8 = freePageStart k ekernel := by
    simp only [freePageStart]; omega
  have hzero : Reserved k 0 ⟨2 ^ k, initNodes (2 * 2 ^ k - 1) 0 (2 ^ k * 2) fun _ => 0, fun _ => 0⟩ := by
    have hnone : reservedBlocks k 0 = ∅ := by ext b; simp [reservedBlocks]
    exact ⟨rfl, by rw [hnone]; exact tree_init k, fun p => by simp⟩
  have hsmall : reservedPages k ekernel < 2 ^ 51 := by
    have h1 := h.start
    have h2 := h.room
    simp only [reservedPages, freePageStart, VA2PA, PHY_START, PA2VA_OFFSET, VM_START, PGSIZE] at h1 ⊢
    omega
  obtain ⟨b, he, hb⟩ := reserve_spec (k := k) (l := VA2PA (freePageStart k ekernel))
    (by omega) (fun p hp => h.reserved_iff (by omega))
    (n := VA2PA (freePageStart k ekernel) / PGSIZE + 1) hzero (Nat.zero_le _)
    (by simp only [reservedPages, PHY_START, PGSIZE]; omega)
  refine ⟨b, ?_, hb⟩
  simp only [buddyInit, hpages, hpow, Bool.not_true, Bool.false_eq_true, if_false, hfps, he,
    Option.map_some]

end Init

end ZjuOs
