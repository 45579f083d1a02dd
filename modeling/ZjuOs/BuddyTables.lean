import ZjuOs.BuddyTree
import ZjuOs.Rounding
import ZjuOs.Buddy

/-!
What `buddy_alloc` and `buddy_free` do to the table `bitmap`. The entry of every node is the canonical
value `longest` for the set of blocks in use; each operation changes that set by one block.
-/
namespace ZjuOs
open BuddyTree

/-- Index of the node of order `h` at position `q` in a tree over `2 ^ k` pages. -/
def idx (k h q : Nat) : Nat := 2 ^ (k - h) - 1 + q

def InTree (k : Nat) (b : Block) : Prop := b.order ≤ k ∧ b.pos < 2 ^ (k - b.order)

theorem two_pow_sub_succ {k h : Nat} (hh : h < k) : 2 ^ (k - h) = 2 * 2 ^ (k - (h + 1)) := by
  have hsplit : k - h = (k - (h + 1)) + 1 := by omega
  rw [hsplit, Nat.pow_succ]
  omega

theorem idx_root (k : Nat) : idx k k 0 = 0 := by simp [idx]

theorem idx_leaf (k p : Nat) : p + 2 ^ k - 1 = idx k 0 p := by
  have := Nat.two_pow_pos k
  simp only [idx, Nat.sub_zero]
  omega

theorem leftLeaf_idx {k h : Nat} (hh : h < k) (q : Nat) :
    leftLeaf (idx k (h + 1) q) = idx k h (2 * q) := by
  have := two_pow_sub_succ hh
  have := Nat.two_pow_pos (k - (h + 1))
  simp only [leftLeaf, idx]
  omega

theorem rightLeaf_idx {k h : Nat} (hh : h < k) (q : Nat) :
    rightLeaf (idx k (h + 1) q) = idx k h (2 * q + 1) := by
  have := two_pow_sub_succ hh
  have := Nat.two_pow_pos (k - (h + 1))
  simp only [rightLeaf, idx]
  omega

theorem parent_idx {k h : Nat} (hh : h < k) (q : Nat) :
    parent (idx k h q) = idx k (h + 1) (q / 2) := by
  have := two_pow_sub_succ hh
  have := Nat.two_pow_pos (k - (h + 1))
  simp only [parent, idx]
  omega

theorem idx_ne_zero {k h : Nat} (hh : h < k) (q : Nat) : idx k h q ≠ 0 := by
  have := two_pow_sub_succ hh
  have := Nat.two_pow_pos (k - (h + 1))
  simp only [idx]
  omega

theorem parent_idx_lt {k h : Nat} (hh : h < k) (q : Nat) :
    idx k (h + 1) (q / 2) < idx k h q := by
  have := two_pow_sub_succ hh
  have := Nat.two_pow_pos (k - (h + 1))
  simp only [idx]
  omega

theorem idx_lt {k h q : Nat} (hh : h ≤ k) (hq : q < 2 ^ (k - h)) : idx k h q < 2 ^ (k + 1) - 1 := by
  have hle : 2 ^ (k - h) ≤ 2 ^ k := Nat.pow_le_pow_right (by omega) (by omega)
  have := Nat.two_pow_pos (k - h)
  simp only [idx, Nat.pow_succ]
  omega

/-- The pages of a node start at a multiple of its size. -/
theorem idx_first {k h q : Nat} (hh : h ≤ k) (hk : k ≤ 63) (hq : q < 2 ^ (k - h)) :
    ((idx k h q + 1) * 2 ^ h + (2 ^ 64 - 2 ^ k)) % 2 ^ 64 = q * 2 ^ h := by
  have hpos := Nat.two_pow_pos (k - h)
  have hidx : idx k h q + 1 = 2 ^ (k - h) + q := by simp only [idx]; omega
  have hpow : 2 ^ (k - h) * 2 ^ h = 2 ^ k := by rw [← Nat.pow_add]; congr 1; omega
  have h63 : 2 ^ k ≤ 2 ^ 63 := Nat.pow_le_pow_right (by omega) hk
  have hlt : q * 2 ^ h < 2 ^ k := by
    rw [← hpow]
    exact Nat.mul_lt_mul_of_pos_right hq (Nat.two_pow_pos h)
  rw [hidx, Nat.add_mul, hpow]
  omega

theorem idx_inj {k h q h' q' : Nat} (hh : h ≤ k) (hh' : h' ≤ k) (hq : q < 2 ^ (k - h))
    (hq' : q' < 2 ^ (k - h')) (he : idx k h q = idx k h' q') : h = h' ∧ q = q' := by
  have hpos := Nat.two_pow_pos (k - h)
  have hpos' := Nat.two_pow_pos (k - h')
  simp only [idx] at he
  -- the level of a node is the logarithm of its index plus one
  have hlog : ∀ {a r : Nat}, r < 2 ^ a → (2 ^ a + r).log2 = a := by
    intro a r hr
    have := Nat.two_pow_pos a
    refine (Nat.log2_eq_iff (by omega)).mpr ⟨by omega, ?_⟩
    rw [Nat.pow_succ]
    omega
  have hsame : 2 ^ (k - h) + q = 2 ^ (k - h') + q' := by omega
  have hlev : k - h = k - h' := by rw [← hlog hq, hsame, hlog hq']
  obtain rfl : h = h' := by omega
  exact ⟨rfl, by omega⟩

theorem exists_idx {k i : Nat} (hi : i < 2 ^ (k + 1) - 1) :
    ∃ h q, h ≤ k ∧ q < 2 ^ (k - h) ∧ idx k h q = i := by
  have hlo : 2 ^ (i + 1).log2 ≤ i + 1 := Nat.log2_self_le (by omega)
  have hhi : i + 1 < 2 ^ ((i + 1).log2 + 1) := Nat.lt_log2_self
  have hlev : (i + 1).log2 ≤ k := by
    by_contra hgt
    have : 2 ^ (k + 1) ≤ 2 ^ (i + 1).log2 := Nat.pow_le_pow_right (by omega) (by omega)
    omega
  have hback : k - (k - (i + 1).log2) = (i + 1).log2 := by omega
  refine ⟨k - (i + 1).log2, i + 1 - 2 ^ (i + 1).log2, by omega, ?_, ?_⟩
  · rw [hback]
    rw [Nat.pow_succ] at hhi
    omega
  · rw [idx, hback]
    omega

theorem within_root {k : Nat} {b : Block} (hb : InTree k b) : b.Within ⟨k, 0⟩ :=
  ⟨hb.1, Nat.div_eq_of_lt hb.2⟩

theorem InTree.up {k : Nat} {b : Block} (hb : InTree k b) (hlt : b.order < k) : InTree k b.up := by
  refine ⟨hlt, ?_⟩
  have := two_pow_sub_succ hlt
  have := hb.2
  simp only [Block.up]
  omega

theorem InTree.of_within {k : Nat} {b c : Block} (hc : InTree k c) (hw : b.Within c) : InTree k b := by
  refine ⟨hw.1.trans hc.1, ?_⟩
  have hsplit : 2 ^ (k - b.order) = 2 ^ (k - c.order) * 2 ^ (c.order - b.order) := by
    rw [← Nat.pow_add]; congr 1; have := hw.1; have := hc.1; omega
  rw [hsplit, ← Nat.div_lt_iff_lt_mul (Nat.two_pow_pos _), hw.2]
  exact hc.2

theorem InTree.covers_lt {k : Nat} {b : Block} (hb : InTree k b) {p : Nat} (hp : b.Covers p) :
    p < 2 ^ k := by
  have hroot := (within_root hb).covers hp
  simpa [Block.Covers, Nat.div_eq_zero_iff] using hroot

/-- `bitmap` is the table of the set `L` of blocks in use. -/
structure Tree (k : Nat) (L : Set Block) (bitmap : Nat → Nat) : Prop where
  separate : Separate L
  inTree : ∀ b ∈ L, InTree k b
  entry : ∀ h q, h ≤ k → q < 2 ^ (k - h) → bitmap (idx k h q) = longest L h q
  last : bitmap (2 ^ (k + 1) - 1) = 0

theorem Tree.root {k : Nat} {L : Set Block} {bitmap : Nat → Nat} (ht : Tree k L bitmap) :
    bitmap 0 = longest L k 0 := by
  have := ht.entry k 0 le_rfl (Nat.two_pow_pos _)
  rwa [idx_root] at this

theorem uncovered_root {k : Nat} {L : Set Block} (hL : ∀ b ∈ L, InTree k b) :
    Uncovered L ⟨k, 0⟩ := by
  intro b hb hw
  exact (hw.eq_of_order (hL b hb).1).symm

/-- The table is a function of the set of blocks in use. -/
theorem Tree.ext {k : Nat} {L : Set Block} {bitmap bitmap' : Nat → Nat} (ht : Tree k L bitmap)
    (ht' : Tree k L bitmap') {i : Nat} (hi : i < 2 * 2 ^ k) : bitmap i = bitmap' i := by
  have hpow : 2 ^ (k + 1) = 2 * 2 ^ k := by rw [Nat.pow_succ]; omega
  rcases Nat.lt_or_ge i (2 ^ (k + 1) - 1) with hlt | hge
  · obtain ⟨h, q, hh, hq, rfl⟩ := exists_idx hlt
    rw [ht.entry h q hh hq, ht'.entry h q hh hq]
  · obtain rfl : i = 2 ^ (k + 1) - 1 := by omega
    rw [ht.last, ht'.last]

section Climb

/-- The common shape of the two upward loops: `f` combines the children of a node of a given size. -/
def climbUpdate (f : Nat → Nat → Nat → Nat) : Nat → (Nat → Nat) → Nat → Nat → (Nat → Nat)
  | 0, bitmap, _, _ => bitmap
  | fuel + 1, bitmap, index, nodeSize =>
      if index = 0 then bitmap
      else
        climbUpdate f fuel
          (Function.update bitmap (parent index)
            (f (nodeSize * 2) (bitmap (leftLeaf (parent index))) (bitmap (rightLeaf (parent index)))))
          (parent index) (nodeSize * 2)

theorem allocUpdate_eq (fuel : Nat) (bitmap : Nat → Nat) (index nodeSize : Nat) :
    allocUpdate fuel bitmap index = climbUpdate (fun _ => max) fuel bitmap index nodeSize := by
  induction fuel generalizing bitmap index nodeSize with
  | zero => rfl
  | succ fuel ih => simp only [allocUpdate, climbUpdate, ih _ _ (nodeSize * 2)]

theorem freeUpdate_eq (fuel : Nat) (bitmap : Nat → Nat) (index nodeSize : Nat) :
    freeUpdate fuel bitmap index nodeSize =
      climbUpdate (fun s l r => if l + r = s then s else max l r) fuel bitmap index nodeSize := by
  induction fuel generalizing bitmap index nodeSize with
  | zero => rfl
  | succ fuel ih => simp only [freeUpdate, climbUpdate, ih]

variable {f : Nat → Nat → Nat → Nat} {k : Nat} {L : Set Block}

theorem parent_lt {index : Nat} (h : index ≠ 0) : parent index < index := by
  simp only [parent]; omega

/-- The loops write only below the index they start from. -/
theorem climbUpdate_of_le {fuel : Nat} {bitmap : Nat → Nat} {index nodeSize j : Nat} (hj : index ≤ j) :
    climbUpdate f fuel bitmap index nodeSize j = bitmap j := by
  induction fuel generalizing bitmap index nodeSize with
  | zero => rfl
  | succ fuel ih =>
      rw [climbUpdate]
      split
      · rfl
      · rename_i hne
        have hlt := parent_lt hne
        rw [ih (by omega), Function.update_of_ne (by omega)]

/-- The node `c` has just been written; only the entries strictly above it may be out of date. -/
def UpToDateBut (k : Nat) (L : Set Block) (bitmap : Nat → Nat) (c : Block) : Prop :=
  ∀ b, InTree k b → ¬ (c.order < b.order ∧ c.Within b) → bitmap (idx k b.order b.pos) = longest L b.order b.pos

theorem UpToDateBut.step {bitmap : Nat → Nat} {c : Block} (hc : InTree k c) (hlt : c.order < k)
    (hb : UpToDateBut k L bitmap c)
    (hf : f (2 ^ (c.order + 1)) (longest L c.order (2 * (c.pos / 2)))
      (longest L c.order (2 * (c.pos / 2) + 1)) = longest L (c.order + 1) (c.pos / 2)) :
    UpToDateBut k L
      (Function.update bitmap (idx k (c.order + 1) (c.pos / 2))
        (f (2 ^ c.order * 2) (bitmap (idx k c.order (2 * (c.pos / 2))))
          (bitmap (idx k c.order (2 * (c.pos / 2) + 1))))) c.up := by
  intro b hbt hn
  have hchild : ∀ r, r / 2 = c.pos / 2 →
      bitmap (idx k c.order r) = longest L c.order r := by
    intro r hr
    have hpow := two_pow_sub_succ hlt
    have hpos := hc.2
    exact hb ⟨c.order, r⟩ ⟨hc.1, by simp only; omega⟩ (by simp)
  by_cases he : b = c.up
  · subst he
    simp only [Block.up, Function.update_self]
    rw [hchild _ (by omega), hchild _ (by omega), ← Nat.pow_succ, hf]
  · have hne : idx k b.order b.pos ≠ idx k (c.order + 1) (c.pos / 2) := by
      intro hidx
      have hup := hc.up hlt
      obtain ⟨ho, hp⟩ := idx_inj hbt.1 hup.1 hbt.2 hup.2 hidx
      exact he (Block.ext ho hp)
    rw [Function.update_of_ne hne]
    refine hb b hbt ?_
    rintro ⟨ho, hw⟩
    refine hn ?_
    have hw' := hw.up_of_ne (fun h => by rw [h] at ho; exact lt_irrefl _ ho)
    refine ⟨?_, hw'⟩
    by_contra hle
    exact he (hw'.eq_of_order (by omega)).symm

/-- An upward loop that recomputes each entry above `c` by a rule `f` valid there restores the table. -/
theorem climbUpdate_entry {fuel : Nat} {bitmap : Nat → Nat} {c : Block} (hc : InTree k c)
    (hfuel : idx k c.order c.pos ≤ fuel) (hb : UpToDateBut k L bitmap c)
    (hf : ∀ h q, h + 1 ≤ k → c.order ≤ h → c.Within ⟨h + 1, q⟩ →
      f (2 ^ (h + 1)) (longest L h (2 * q)) (longest L h (2 * q + 1)) = longest L (h + 1) q)
    {b : Block} (hbt : InTree k b) :
    climbUpdate f fuel bitmap (idx k c.order c.pos) (2 ^ c.order) (idx k b.order b.pos) =
      longest L b.order b.pos := by
  induction fuel generalizing bitmap c with
  | zero =>
      have hroot : ¬ c.order < k := fun hlt => idx_ne_zero hlt c.pos (by omega)
      exact hb b hbt fun h => by have := hbt.1; omega
  | succ fuel ih =>
      rw [climbUpdate]
      by_cases hlt : c.order < k
      · have hpar := parent_idx_lt hlt c.pos
        rw [if_neg (idx_ne_zero hlt c.pos), parent_idx hlt, leftLeaf_idx hlt, rightLeaf_idx hlt]
        have hstep := hb.step hc hlt (hf c.order (c.pos / 2) hlt le_rfl c.within_up)
        refine ih (c := c.up) (hc.up hlt) (by simp only [Block.up]; omega) hstep ?_
        intro h q hh ho hw
        exact hf h q hh (by simp only [Block.up] at ho; omega) (c.within_up.trans hw)
      · have hk : c.order = k := le_antisymm hc.1 (Nat.le_of_not_lt hlt)
        have hpos : c.pos = 0 := by have := hc.2; rw [hk] at this; simpa using this
        rw [hk, hpos, idx_root, if_pos rfl]
        exact hb b hbt fun h => by have := hbt.1; omega

end Climb

section Alloc
variable {k : Nat} {L : Set Block} {bitmap : Nat → Nat}

/-- The descent ends at the lowest aligned free run of the requested size. -/
theorem allocDescend_spec (hentry : ∀ h q, h ≤ k → q < 2 ^ (k - h) → bitmap (idx k h q) = longest L h q)
    {j n h q : Nat} (hj : j ≤ h) (hfuel : h - j < n) (hn : InTree k ⟨h, q⟩)
    (hu : Uncovered L ⟨h, q⟩) (hle : 2 ^ j ≤ longest L h q) :
    ∃ r, allocDescend bitmap (2 ^ j) n (idx k h q) (2 ^ h) = some (idx k j r, 2 ^ j) ∧
      (⟨j, r⟩ : Block).Within ⟨h, q⟩ ∧ FreeRun L ⟨j, r⟩ ∧
      ∀ r', (⟨j, r'⟩ : Block).Within ⟨h, q⟩ → FreeRun L ⟨j, r'⟩ → r ≤ r' := by
  induction n generalizing h q with
  | zero => omega
  | succ n ih =>
      rw [allocDescend]
      rcases Nat.lt_or_ge j h with hlt | hge
      · obtain ⟨h, rfl⟩ : ∃ h', h = h' + 1 := ⟨h - 1, by omega⟩
        have hh : h < k := hn.1
        have hm : (⟨h + 1, q⟩ : Block) ∉ L := by
          intro hm
          rw [longest_of_mem hm] at hle
          have := Nat.two_pow_pos j
          omega
        have hchild : ∀ r, r / 2 = q → InTree k ⟨h, r⟩ := by
          intro r hr
          have := two_pow_sub_succ hh
          have hq : q < 2 ^ (k - (h + 1)) := hn.2
          exact ⟨hh.le, by simp only; omega⟩
        have hsize : 2 ^ (h + 1) ≠ 2 ^ j := fun he => by
          have := Nat.pow_right_injective (le_refl 2) he
          omega
        have hhalf : 2 ^ (h + 1) / 2 = 2 ^ h := by rw [Nat.pow_succ]; omega
        rw [if_neg hsize, leftLeaf_idx hh, rightLeaf_idx hh, hhalf, hentry h (2 * q) hh.le
          (hchild _ (by omega)).2]
        have hul := hu.child hm (r := 2 * q) (by omega)
        have hur := hu.child hm (r := 2 * q + 1) (by omega)
        by_cases hleft : 2 ^ j ≤ longest L h (2 * q)
        · rw [if_pos hleft]
          obtain ⟨r, he, hw, hf, hmin⟩ := ih (by omega) (by omega) (hchild _ (by omega)) hul hleft
          refine ⟨r, he, Block.within_succ_iff.mpr (.inr (.inl hw)), hf, ?_⟩
          intro r' hw' hf'
          rcases Block.within_succ_iff.mp hw' with heq | hl | hr
          · have hord : j = h + 1 := congrArg Block.order heq
            omega
          · exact hmin r' hl hf'
          · -- the right half lies above the left one
            have h1 := hw.2
            have h2 := hr.2
            simp only at h1 h2
            by_contra hgt
            have := Nat.div_le_div_right (c := 2 ^ (h - j)) (show r' ≤ r by omega)
            omega
        · rw [if_neg hleft]
          have hright := ((pow_le_longest_succ_iff hm (by omega)).mp hle).resolve_left hleft
          obtain ⟨r, he, hw, hf, hmin⟩ := ih (by omega) (by omega) (hchild _ (by omega)) hur hright
          refine ⟨r, he, Block.within_succ_iff.mpr (.inr (.inr hw)), hf, ?_⟩
          intro r' hw' hf'
          rcases Block.within_succ_iff.mp hw' with heq | hl | hr
          · have hord : j = h + 1 := congrArg Block.order heq
            omega
          · exact absurd ((pow_le_longest_iff (by omega) hul).mpr ⟨r', hl, hf'⟩) hleft
          · exact hmin r' hr hf'
      · obtain rfl : h = j := by omega
        obtain ⟨r, hw, hf⟩ := (pow_le_longest_iff le_rfl hu).mp hle
        have hr : (⟨h, r⟩ : Block) = ⟨h, q⟩ := hw.eq_of_order le_rfl
        rw [hr] at hf
        refine ⟨q, by rw [if_pos rfl], .refl _, hf, ?_⟩
        intro r' hw' _
        exact (congrArg Block.pos (hw'.eq_of_order le_rfl)).ge

theorem Tree.insert (ht : Tree k L bitmap) {c : Block} (hc : InTree k c) (hf : FreeRun L c) :
    Tree k (Set.insert c L)
      (allocUpdate (idx k c.order c.pos) (Function.update bitmap (idx k c.order c.pos) 0)
        (idx k c.order c.pos)) := by
  have hlt := idx_lt hc.1 hc.2
  rw [allocUpdate_eq _ _ _ (2 ^ c.order)]
  refine ⟨hf.separate_insert ht.separate, ?_, ?_, ?_⟩
  · rintro b (rfl | hb)
    · exact hc
    · exact ht.inTree b hb
  · intro h q hh hq
    refine climbUpdate_entry (b := ⟨h, q⟩) hc le_rfl ?_ ?_ ⟨hh, hq⟩
    · intro b hbt hn
      by_cases he : b = c
      · subst he
        rw [Function.update_self]
        exact (longest_insert_self L b).symm
      · have hne : idx k b.order b.pos ≠ idx k c.order c.pos := fun hidx =>
          he (Block.ext (idx_inj hbt.1 hc.1 hbt.2 hc.2 hidx).1 (idx_inj hbt.1 hc.1 hbt.2 hc.2 hidx).2)
        rw [Function.update_of_ne hne, ht.entry _ _ hbt.1 hbt.2]
        refine (longest_insert_of_not_within fun hw => ?_).symm
        refine hn ⟨?_, hw⟩
        by_contra hle
        exact he (hw.eq_of_order (by simpa using hle)).symm
    · intro h q _ ho hw
      have hm : (⟨h + 1, q⟩ : Block) ∉ Set.insert c L := by
        rintro (he | hm)
        · have : h + 1 = c.order := congrArg Block.order he
          omega
        · exact hf.not_above hm hw
      exact (longest_succ_of_within hm (Set.mem_insert c L) hw).symm
  · rw [climbUpdate_of_le (by omega), Function.update_of_ne (by omega), ht.last]

end Alloc

section Free
variable {k : Nat} {L : Set Block} {bitmap : Nat → Nat}

/-- From the first page of a block in use the climb stops at the node of the block. -/
theorem freeClimb_spec (ht : Tree k L bitmap) {c : Block} (hc : c ∈ L) {fuel : Nat} {b : Block}
    (hw : b.Within c) (hfuel : c.order - b.order < fuel) :
    freeClimb bitmap fuel (idx k b.order b.pos) (2 ^ b.order) =
      (idx k c.order c.pos, 2 ^ c.order) := by
  have hct := ht.inTree c hc
  induction fuel generalizing b with
  | zero => omega
  | succ fuel ih =>
      have hbt := hct.of_within hw
      rw [freeClimb, ht.entry _ _ hbt.1 hbt.2]
      by_cases he : b = c
      · subst he
        rw [if_pos (longest_of_mem hc)]
      · have hpos := Nat.two_pow_pos b.order
        have hlt : b.order < c.order := by
          by_contra hle
          exact he (hw.eq_of_order (by omega))
        have hck := hct.1
        rw [longest_below ht.separate hc hw he, if_neg (by omega), if_neg (idx_ne_zero (by omega) _),
          parent_idx (by omega), ← Nat.pow_succ]
        exact ih (b := b.up) (hw.up_of_ne he) (by simp only [Block.up]; omega)

theorem Tree.erase (ht : Tree k L bitmap) {c : Block} (hc : c ∈ L) :
    Tree k (L \ {c})
      (freeUpdate (idx k c.order c.pos) (Function.update bitmap (idx k c.order c.pos) (2 ^ c.order))
        (idx k c.order c.pos) (2 ^ c.order)) := by
  have hct := ht.inTree c hc
  have hlt := idx_lt hct.1 hct.2
  rw [freeUpdate_eq]
  refine ⟨ht.separate.mono fun _ hb => hb.1, fun b hb => ht.inTree b hb.1, ?_, ?_⟩
  · intro h q hh hq
    refine climbUpdate_entry (b := ⟨h, q⟩) hct le_rfl ?_ ?_ ⟨hh, hq⟩
    · intro b hbt hn
      by_cases he : b = c
      · subst he
        rw [Function.update_self, longest_erase_self ht.separate hc]
      · have hne : idx k b.order b.pos ≠ idx k c.order c.pos := fun hidx =>
          he (Block.ext (idx_inj hbt.1 hct.1 hbt.2 hct.2 hidx).1
            (idx_inj hbt.1 hct.1 hbt.2 hct.2 hidx).2)
        rw [Function.update_of_ne hne, ht.entry _ _ hbt.1 hbt.2]
        refine (longest_erase_of_not_within fun hw => ?_).symm
        refine hn ⟨?_, hw⟩
        by_contra hle
        exact he (hw.eq_of_order (by simpa using hle)).symm
    · intro h q _ ho hw
      have hm : (⟨h + 1, q⟩ : Block) ∉ L \ {c} := by
        rintro ⟨hm, hne⟩
        exact hne ((ht.separate.uncovered hc) _ hm hw)
      exact (longest_succ_of_not_mem hm).symm
  · rw [climbUpdate_of_le (by omega), Function.update_of_ne (by omega), ht.last]

end Free

end ZjuOs
