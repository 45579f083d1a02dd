import Mathlib.Order.BooleanAlgebra.Set
import ZjuOs.BuddyOps

/-!
Runs of the allocator from `buddy_init`. Beside the allocator a run carries the history of its blocks:
who was handed out, for which request, and how many references are outstanding.
-/
namespace ZjuOs
open BuddyTree

/-- A block handed out for a request of `pages` pages. -/
structure Holding where
  pages : Nat
  refs : Nat

/-- `live p` is the block whose first page is `p`, if one is handed out and not fully released. -/
structure Allocator where
  buddy : Buddy
  live : Nat → Option Holding

inductive AllocStep : Allocator → Allocator → Prop
  | alloc {s : Allocator} {n p : Nat} {b : Buddy} : 1 ≤ n → n ≤ s.buddy.size →
      buddyAlloc s.buddy n = some (p, b) →
      AllocStep s ⟨b, if p = 0 then s.live else Function.update s.live p (some ⟨n, 1⟩)⟩
  | inc {s : Allocator} {p : Nat} {h : Holding} : s.live p = some h → h.refs + 1 < 2 ^ 64 →
      AllocStep s ⟨pageRefInc s.buddy p, Function.update s.live p (some ⟨h.pages, h.refs + 1⟩)⟩
  | dec {s : Allocator} {p : Nat} {h : Holding} : s.live p = some h →
      AllocStep s ⟨pageRefDec s.buddy p,
        Function.update s.live p (if h.refs = 1 then none else some ⟨h.pages, h.refs - 1⟩)⟩

/-- `s` is reached from `buddy_init`, which moved `free_page_start` to `fps`. -/
inductive AllocReach (phySize ekernel : Nat) : Nat → Allocator → Prop
  | init {b : Buddy} {fps : Nat} : buddyInit phySize ekernel = some (b, fps) →
      AllocReach phySize ekernel fps ⟨b, fun _ => none⟩
  | step {fps : Nat} {s t : Allocator} : AllocReach phySize ekernel fps s → AllocStep s t →
      AllocReach phySize ekernel fps t

/-- The page belongs to the block of `fixsize(pages)` pages that starts at `p`. -/
def Holding.Holds (h : Holding) (p x : Nat) : Prop := p ≤ x ∧ x < p + fixsize h.pages

/-- The frame overlaps `[PHY_START, free_page_start)`. -/
def KernelPage (fps x : Nat) : Prop := PFN2PHYS x < VA2PA fps

/-- No live block and no part of the kernel region contains the page. -/
def Unused (fps : Nat) (s : Allocator) (x : Nat) : Prop :=
  ¬ KernelPage fps x ∧ ∀ p h, s.live p = some h → ¬ h.Holds p x

def pathFree (bitmap : Nat → Nat) : Nat → Nat → Bool
  | 0, _ => true
  | fuel + 1, index =>
      bitmap index != 0 && (index == 0 || pathFree bitmap fuel (parent index))

/-- The allocator's own record: a page is free when no entry from its leaf to the root is zero. -/
def pageFree (b : Buddy) (pfn : Nat) : Bool :=
  pathFree b.bitmap (pfn + b.size) (pfn + b.size - 1)

theorem fixsize_eq_clog {n : Nat} (hn : 1 ≤ n) (hlt : n ≤ 2 ^ 63) : fixsize n = 2 ^ Nat.clog 2 n := by
  rcases Nat.lt_or_ge 1 n with h | h
  · exact fixsize_eq h hlt
  · obtain rfl : n = 1 := by omega
    rw [Nat.clog_one_right]
    decide

section PageFree
variable {k : Nat} {L : Set Block} {bitmap : Nat → Nat}

theorem pathFree_iff (ht : Tree k L bitmap) {b : Block} (hb : InTree k b) {n : Nat}
    (hfuel : idx k b.order b.pos < n) :
    pathFree bitmap n (idx k b.order b.pos) = true ↔
      ∀ h q, h ≤ k → b.Within ⟨h, q⟩ → longest L h q ≠ 0 := by
  induction n generalizing b with
  | zero => omega
  | succ n ih =>
      rw [pathFree, ht.entry _ _ hb.1 hb.2]
      simp only [Bool.and_eq_true, bne_iff_ne, ne_eq, Bool.or_eq_true, beq_iff_eq]
      by_cases hlt : b.order < k
      · have hup := ih (hb.up hlt) (by have := parent_idx_lt hlt b.pos; simp only [Block.up]; omega)
        rw [parent_idx hlt]
        simp only [idx_ne_zero hlt, false_or]
        rw [show pathFree bitmap n (idx k (b.order + 1) (b.pos / 2)) = true ↔ _ from hup]
        constructor
        · rintro ⟨hself, habove⟩ h q hh hw
          by_cases he : b = ⟨h, q⟩
          · rw [he] at hself
            exact hself
          · exact habove h q hh (hw.up_of_ne he)
        · intro h
          exact ⟨h _ _ hb.1 (.refl b), fun h' q hh hw => h h' q hh (b.within_up.trans hw)⟩
      · have hk : b.order = k := le_antisymm hb.1 (Nat.le_of_not_lt hlt)
        have hpos : b.pos = 0 := by have := hb.2; rw [hk] at this; simpa using this
        have hzero : idx k b.order b.pos = 0 := by rw [hk, hpos, idx_root]
        simp only [hzero, true_or, and_true]
        constructor
        · intro hself h q hh hw
          have he : b = ⟨h, q⟩ := hw.eq_of_order (by simp only; omega)
          rw [he] at hself
          exact hself
        · intro h
          exact h _ _ hb.1 (.refl b)

theorem pageFree_iff {b : Buddy} (hsize : b.size = 2 ^ k) (ht : Tree k L b.bitmap) {x : Nat}
    (hx : x < 2 ^ k) : pageFree b x = true ↔ ∀ c ∈ L, ¬ c.Covers x := by
  have hleaf : InTree k ⟨0, x⟩ := ⟨Nat.zero_le _, by simpa using hx⟩
  have hpos := Nat.two_pow_pos k
  have hpath := pathFree_iff ht hleaf (n := x + 2 ^ k)
    (by simp only [idx, Nat.sub_zero]; omega)
  rw [pageFree, hsize, idx_leaf, hpath]
  constructor
  · intro h c hc hcx
    exact h c.order c.pos (ht.inTree c hc).1
      (Block.within_of_covers (b := ⟨0, x⟩) (by simp [Block.Covers]) hcx (Nat.zero_le _))
      (longest_of_mem hc)
  · intro h n q hn hw
    have hcov : (⟨n, q⟩ : Block).Covers x := hw.covers (by simp [Block.Covers])
    have hu : Uncovered L ⟨n, q⟩ := fun c hc hnc => absurd (hnc.covers hcov) (h c hc)
    have hrun := (pow_le_longest_iff (Nat.zero_le _) hu).mpr ⟨x, hw, freeRun_page_iff.mpr h⟩
    rw [Nat.pow_zero] at hrun
    omega

end PageFree

section Invariant
variable {k r : Nat}

/-- The block of a holding that starts at `p`. -/
def Holding.block (h : Holding) (p : Nat) : Block :=
  ⟨Nat.clog 2 h.pages, p / 2 ^ Nat.clog 2 h.pages⟩

def liveBlocks (live : Nat → Option Holding) : Set Block :=
  {c | ∃ p h, live p = some h ∧ c = h.block p}

structure HoldingOk (k r p : Nat) (h : Holding) : Prop where
  pages_pos : 1 ≤ h.pages
  pages_le : h.pages ≤ 2 ^ k
  refs_pos : 0 < h.refs
  refs_lt : h.refs < 2 ^ 64
  above : r ≤ p
  aligned : 2 ^ Nat.clog 2 h.pages ∣ p

theorem HoldingOk.first {p : Nat} {h : Holding} (ok : HoldingOk k r p h) : (h.block p).first = p :=
  Nat.div_mul_cancel ok.aligned

/-- References that a page should have: those of its block, or one for a reserved page. -/
def expectedRefs (k r : Nat) (live : Nat → Option Holding) (p : Nat) : Nat :=
  match live p with
  | some h => h.refs
  | none => if p < r ∧ p < 2 ^ k then 1 else 0

/-- The invariant of a run: the table is that of the live blocks and the `r` reserved pages. -/
structure AllocInv (k r : Nat) (s : Allocator) : Prop where
  size : s.buddy.size = 2 ^ k
  tree : Tree k (liveBlocks s.live ∪ reservedBlocks k r) s.buddy.bitmap
  holding : ∀ p h, s.live p = some h → HoldingOk k r p h
  refCnt : ∀ p, s.buddy.refCnt p = expectedRefs k r s.live p

theorem update_forall {live : Nat → Option Holding} {P : Nat → Holding → Prop} {p : Nat}
    {v : Option Holding} (hold : ∀ q h, live q = some h → P q h) (hnew : ∀ h, v = some h → P p h) :
    ∀ q h, Function.update live p v q = some h → P q h := by
  intro q h hq
  by_cases hqp : q = p
  · subst hqp
    rw [Function.update_self] at hq
    exact hnew h hq
  · rw [Function.update_of_ne hqp] at hq
    exact hold q h hq

theorem expectedRefs_update {live : Nat → Option Holding} {cnt : Nat → Nat} {p m : Nat}
    {v : Option Holding} (hold : ∀ q, cnt q = expectedRefs k r live q)
    (hnew : m = expectedRefs k r (Function.update live p v) p) :
    ∀ q, Function.update cnt p m q = expectedRefs k r (Function.update live p v) q := by
  intro q
  by_cases hqp : q = p
  · subst hqp
    rw [Function.update_self, hnew]
  · rw [Function.update_of_ne hqp, hold q, expectedRefs, expectedRefs, Function.update_of_ne hqp]

theorem expectedRefs_some {live : Nat → Option Holding} {p : Nat} {h : Holding} :
    expectedRefs k r (Function.update live p (some h)) p = h.refs := by
  simp only [expectedRefs, Function.update_self]

theorem reserved_first {c : Block} (hc : c ∈ reservedBlocks k r) : c.first < r := by
  obtain ⟨ho, hr, _⟩ := hc
  simpa [Block.first, ho] using hr

theorem liveBlocks_insert {live : Nat → Option Holding} {p : Nat} {h : Holding} (hnew : live p = none) :
    liveBlocks (Function.update live p (some h)) = Set.insert (h.block p) (liveBlocks live) := by
  ext c
  constructor
  · rintro ⟨q, h', hq, rfl⟩
    revert q h'
    refine update_forall (fun q h' hq => .inr ⟨q, h', hq, rfl⟩) ?_
    rintro _ ⟨⟩
    exact .inl rfl
  · rintro (rfl | ⟨q, h', hq, rfl⟩)
    · exact ⟨p, h, Function.update_self .., rfl⟩
    · have hqp : q ≠ p := by rintro rfl; simp [hnew] at hq
      exact ⟨q, h', by rw [Function.update_of_ne hqp, hq], rfl⟩

/-- A change of the reference count alone changes no block. -/
theorem liveBlocks_recount {live : Nat → Option Holding} {p m : Nat} {h : Holding}
    (hp : live p = some h) :
    liveBlocks (Function.update live p (some ⟨h.pages, m⟩)) = liveBlocks live := by
  ext c
  constructor
  · rintro ⟨q, h', hq, rfl⟩
    revert q h'
    refine update_forall (fun q h' hq => ⟨q, h', hq, rfl⟩) ?_
    rintro _ ⟨⟩
    exact ⟨p, h, hp, rfl⟩
  · rintro ⟨q, h', hq, rfl⟩
    by_cases hqp : q = p
    · subst hqp
      rw [hp] at hq
      cases hq
      exact ⟨q, ⟨h.pages, m⟩, Function.update_self .., rfl⟩
    · exact ⟨q, h', by rw [Function.update_of_ne hqp, hq], rfl⟩

theorem liveBlocks_erase {live : Nat → Option Holding} (hok : ∀ q h, live q = some h → HoldingOk k r q h)
    {p : Nat} {h : Holding} (hp : live p = some h) :
    liveBlocks (Function.update live p none) = liveBlocks live \ {h.block p} := by
  have hfirst := (hok p h hp).first
  ext c
  constructor
  · rintro ⟨q, h', hq, rfl⟩
    have hqp : q ≠ p := by rintro rfl; simp at hq
    rw [Function.update_of_ne hqp] at hq
    refine ⟨⟨q, h', hq, rfl⟩, fun he => hqp ?_⟩
    rw [← (hok q h' hq).first, he, hfirst]
  · rintro ⟨⟨q, h', hq, rfl⟩, hne⟩
    have hqp : q ≠ p := by
      rintro rfl
      rw [hp] at hq
      cases hq
      exact hne rfl
    exact ⟨q, h', by rw [Function.update_of_ne hqp, hq], rfl⟩

/-- A page outside all blocks has no references. -/
theorem AllocInv.refCnt_uncovered {s : Allocator} (hs : AllocInv k r s) {p : Nat}
    (h : ∀ c ∈ liveBlocks s.live ∪ reservedBlocks k r, ¬ c.Covers p) : s.buddy.refCnt p = 0 := by
  rw [hs.refCnt, expectedRefs]
  cases hl : s.live p with
  | some g =>
      have hcov := (g.block p).covers_first
      rw [(hs.holding p g hl).first] at hcov
      exact absurd hcov (h _ (.inl ⟨p, g, hl, rfl⟩))
  | none =>
      refine if_neg fun hr => ?_
      obtain ⟨c, hc, hcov⟩ := reservedBlocks_covers.mpr hr
      exact h c (.inr hc) hcov

theorem AllocInv.init {b : Buddy} (hb : Reserved k r b) : AllocInv k r ⟨b, fun _ => none⟩ := by
  have hnone : liveBlocks (fun _ => none) = ∅ := by ext c; simp [liveBlocks]
  refine ⟨hb.size, ?_, (fun p h he => by cases he), hb.refCnt⟩
  rw [hnone, Set.empty_union]
  exact hb.tree

/-- What `buddy_alloc` does in a state of a run. -/
theorem AllocInv.alloc_spec {s : Allocator} (hs : AllocInv k r s) (hr : 0 < r) (hk : k ≤ 63) {n : Nat}
    (hn : 1 ≤ n) (hle : n ≤ 2 ^ k) :
    (∃ c b, buddyAlloc s.buddy n = some (c.first, b) ∧ c.order = Nat.clog 2 n ∧ c.first ≠ 0 ∧
      InTree k c ∧ FreeRun (liveBlocks s.live ∪ reservedBlocks k r) c ∧
      (∀ d : Block, d.order = c.order → InTree k d →
        FreeRun (liveBlocks s.live ∪ reservedBlocks k r) d → c.first ≤ d.first) ∧
      Tree k (Set.insert c (liveBlocks s.live ∪ reservedBlocks k r)) b.bitmap ∧
      AllocInv k r ⟨b, Function.update s.live c.first (some ⟨n, 1⟩)⟩) ∨
    (buddyAlloc s.buddy n = some (0, s.buddy) ∧ ∀ d : Block, d.order = Nat.clog 2 n → InTree k d →
      ¬ FreeRun (liveBlocks s.live ∪ reservedBlocks k r) d) := by
  rcases buddyAlloc_spec hs.size hs.tree hk hn hle with ⟨q, bitmap, he, hin, hf, hmin, ht⟩ | ⟨he, hnone⟩
  · left
    have hcov : (⟨Nat.clog 2 n, q⟩ : Block).Covers (q * 2 ^ Nat.clog 2 n) := Block.covers_first _
    have hres : r ≤ q * 2 ^ Nat.clog 2 n := by
      by_contra hlt
      obtain ⟨b, hb, hbc⟩ := reservedBlocks_covers.mpr ⟨Nat.lt_of_not_le hlt, hin.covers_lt hcov⟩
      exact hf _ hcov b (.inr hb) hbc
    have hlive : s.live (q * 2 ^ Nat.clog 2 n) = none := by
      cases hl : s.live (q * 2 ^ Nat.clog 2 n) with
      | none => rfl
      | some h =>
          have hc := (h.block (q * 2 ^ Nat.clog 2 n)).covers_first
          rw [(hs.holding _ _ hl).first] at hc
          exact absurd hc (hf _ hcov _ (.inl ⟨_, h, hl, rfl⟩))
    have hblock : (⟨n, 1⟩ : Holding).block (q * 2 ^ Nat.clog 2 n) = ⟨Nat.clog 2 n, q⟩ := by
      rw [Holding.block, Nat.mul_div_cancel _ (Nat.two_pow_pos _)]
    refine ⟨⟨Nat.clog 2 n, q⟩, _, he, rfl, by simp only [Block.first]; omega, hin, hf, ?_, ht, hs.size,
      ?_, ?_, ?_⟩
    · rintro ⟨_, q'⟩ rfl hd hfd
      exact Nat.mul_le_mul_right _ (hmin q' hd hfd)
    · have hunion : Set.insert ⟨Nat.clog 2 n, q⟩ (liveBlocks s.live) ∪ reservedBlocks k r =
          Set.insert ⟨Nat.clog 2 n, q⟩ (liveBlocks s.live ∪ reservedBlocks k r) := Set.insert_union
      simp only [Block.first]
      rw [liveBlocks_insert hlive, hblock, hunion]
      exact ht
    · refine update_forall hs.holding ?_
      rintro _ ⟨⟩
      exact ⟨hn, hle, Nat.one_pos, Nat.one_lt_two_pow (by decide), hres, Nat.dvd_mul_left _ _⟩
    · refine expectedRefs_update hs.refCnt ?_
      exact (expectedRefs_some (h := ⟨n, 1⟩)).symm
  · right
    refine ⟨he, ?_⟩
    rintro ⟨_, q⟩ rfl hd
    exact hnone q hd

theorem AllocInv.inc {s : Allocator} (hs : AllocInv k r s) {p : Nat} {h : Holding}
    (hp : s.live p = some h) (hlt : h.refs + 1 < 2 ^ 64) :
    AllocInv k r ⟨pageRefInc s.buddy p, Function.update s.live p (some ⟨h.pages, h.refs + 1⟩)⟩ := by
  have ok := hs.holding p h hp
  have hcnt := hs.refCnt p
  simp only [expectedRefs, hp] at hcnt
  refine ⟨hs.size, ?_, ?_, ?_⟩
  · rw [liveBlocks_recount hp]
    exact hs.tree
  · refine update_forall hs.holding ?_
    rintro _ ⟨⟩
    exact { ok with refs_pos := Nat.succ_pos _, refs_lt := hlt }
  · refine expectedRefs_update hs.refCnt ?_
    rw [expectedRefs_some, hcnt]
    exact Nat.mod_eq_of_lt hlt

theorem pageRefDec_last {b : Buddy} {p : Nat} (h : b.refCnt p = 1) :
    pageRefDec b p = buddyFree { b with refCnt := Function.update b.refCnt p 0 } p := by
  simp [pageRefDec, h]

theorem pageRefDec_more {b : Buddy} {p : Nat} (h : 1 < b.refCnt p) :
    pageRefDec b p = { b with refCnt := Function.update b.refCnt p (b.refCnt p - 1) } := by
  have hpos : 0 < b.refCnt p := by omega
  have hne : b.refCnt p - 1 ≠ 0 := by omega
  simp [pageRefDec, hpos, hne]

theorem AllocInv.dec {s : Allocator} (hs : AllocInv k r s) {p : Nat} {h : Holding}
    (hp : s.live p = some h) :
    AllocInv k r ⟨pageRefDec s.buddy p,
      Function.update s.live p (if h.refs = 1 then none else some ⟨h.pages, h.refs - 1⟩)⟩ := by
  have ok := hs.holding p h hp
  have hcnt := hs.refCnt p
  simp only [expectedRefs, hp] at hcnt
  have hpos := ok.refs_pos
  have habove := ok.above
  by_cases hone : h.refs = 1
  · have hzero : Function.update s.buddy.refCnt p 0 (h.block p).first = 0 := by
      rw [ok.first, Function.update_self]
    obtain ⟨bitmap, he, ht⟩ := buddyFree_spec (k := k) (c := h.block p)
      (b := { s.buddy with refCnt := Function.update s.buddy.refCnt p 0 })
      hs.size hs.tree (.inl ⟨p, h, hp, rfl⟩) hzero
    rw [ok.first] at he
    rw [pageRefDec_last (hcnt.trans hone), he, if_pos hone]
    refine ⟨hs.size, ?_, update_forall hs.holding (by rintro _ ⟨⟩), ?_⟩
    · have hnot : h.block p ∉ reservedBlocks k r := fun hres => by
        have := reserved_first hres
        rw [ok.first] at this
        omega
      have hsplit : (liveBlocks s.live ∪ reservedBlocks k r) \ {h.block p} =
          liveBlocks s.live \ {h.block p} ∪ reservedBlocks k r := by
        rw [Set.union_sdiff_distrib, Set.sdiff_singleton_eq_self hnot]
      rw [liveBlocks_erase hs.holding hp, ← hsplit]
      exact ht
    · refine expectedRefs_update hs.refCnt ?_
      simp only [expectedRefs, Function.update_self]
      rw [if_neg (by omega)]
  · rw [pageRefDec_more (by omega), if_neg hone]
    refine ⟨hs.size, ?_, ?_, ?_⟩
    · rw [liveBlocks_recount hp]
      exact hs.tree
    · refine update_forall hs.holding ?_
      rintro _ ⟨⟩
      have hlt := ok.refs_lt
      exact { ok with refs_pos := by simp only; omega, refs_lt := by simp only; omega }
    · refine expectedRefs_update hs.refCnt ?_
      rw [expectedRefs_some, hcnt]

theorem AllocInv.step {s t : Allocator} (hs : AllocInv k r s) (hr : 0 < r) (hk : k ≤ 63)
    (hstep : AllocStep s t) : AllocInv k r t := by
  cases hstep with
  | @alloc n p b hn hle he =>
      rw [hs.size] at hle
      rcases hs.alloc_spec hr hk hn hle with ⟨c, b', hc, _, hne, _, _, _, _, hinv⟩ | ⟨hnone, _⟩
      · rw [hc] at he
        cases he
        rw [if_neg hne]
        exact hinv
      · rw [hnone] at he
        cases he
        rw [if_pos rfl]
        exact hs
  | inc hp hlt => exact hs.inc hp hlt
  | dec hp => exact hs.dec hp

theorem AllocReach.inv {k ekernel fps : Nat} {s : Allocator} (hfit : Fits k ekernel)
    (h : AllocReach (2 ^ k * PGSIZE) ekernel fps s) :
    fps = freePageStart k ekernel ∧ AllocInv k (reservedPages k ekernel) s := by
  induction h with
  | init he =>
      obtain ⟨b, hb, hres⟩ := buddyInit_spec hfit
      rw [hb] at he
      cases he
      exact ⟨rfl, .init hres⟩
  | step _ hstep ih =>
      have := hfit.le
      exact ⟨ih.1, ih.2.step hfit.reservedPages_pos (by omega) hstep⟩

end Invariant

section Safety
variable {k : Nat} {ekernel fps : Nat} {s : Allocator}

theorem Holding.holds_iff {r p x : Nat} {h : Holding} (hk : k ≤ 63) (ok : HoldingOk k r p h) :
    h.Holds p x ↔ (h.block p).Covers x := by
  have h63 : 2 ^ k ≤ 2 ^ 63 := Nat.pow_le_pow_right (by omega) hk
  have hfix := fixsize_eq_clog ok.pages_pos (ok.pages_le.trans h63)
  rw [Block.covers_iff, ok.first, Holding.Holds, hfix]
  rfl

theorem kernelPage_iff (hfit : Fits k ekernel) {x : Nat} (hx : x < 2 ^ k) :
    KernelPage (freePageStart k ekernel) x ↔ x < reservedPages k ekernel := by
  have hk := hfit.le
  have : 2 ^ k ≤ 2 ^ 32 := Nat.pow_le_pow_right (by omega) hk
  exact hfit.reserved_iff (by omega)

theorem covered_iff (hfit : Fits k ekernel) (hs : AllocInv k (reservedPages k ekernel) s) {x : Nat}
    (hx : x < 2 ^ k) :
    (∀ c ∈ liveBlocks s.live ∪ reservedBlocks k (reservedPages k ekernel), ¬ c.Covers x) ↔
      Unused (freePageStart k ekernel) s x := by
  have hk : k ≤ 63 := by have := hfit.le; omega
  constructor
  · intro h
    refine ⟨fun hker => ?_, fun p g hp hold => ?_⟩
    · obtain ⟨c, hc, hcov⟩ := reservedBlocks_covers.mpr ⟨(kernelPage_iff hfit hx).mp hker, hx⟩
      exact h c (.inr hc) hcov
    · exact h _ (.inl ⟨p, g, hp, rfl⟩) ((Holding.holds_iff hk (hs.holding p g hp)).mp hold)
  · rintro ⟨hker, hlive⟩ c (⟨p, g, hp, rfl⟩ | hc) hcov
    · exact hlive p g hp ((Holding.holds_iff hk (hs.holding p g hp)).mpr hcov)
    · exact hker ((kernelPage_iff hfit hx).mpr (reservedBlocks_covers.mp ⟨c, hc, hcov⟩).1)

/-- The allocator's record of free pages agrees with the history. -/
theorem pageFree_iff_unused (hfit : Fits k ekernel) (hs : AllocInv k (reservedPages k ekernel) s)
    {x : Nat} (hx : x < 2 ^ k) :
    pageFree s.buddy x = true ↔ Unused (freePageStart k ekernel) s x :=
  (pageFree_iff hs.size hs.tree hx).trans (covered_iff hfit hs hx)

/-- What the callers of the allocator rely on. `fresh` is about the next request: none of the pages it
gets is in a live block, so no step of a run overwrites a block in `live`. `counted` covers every page:
only the first page of a live block and the reserved pages have a nonzero count. -/
structure AllocSafe (fps : Nat) (s : Allocator) : Prop where
  fresh : ∀ n p b, 1 ≤ n → n ≤ s.buddy.size → buddyAlloc s.buddy n = some (p, b) → p ≠ 0 →
    ∀ x, (⟨n, 1⟩ : Holding).Holds p x → Unused fps s x
  disjoint : ∀ p q h g, s.live p = some h → s.live q = some g → p ≠ q →
    ∀ x, ¬ (h.Holds p x ∧ g.Holds q x)
  nonzero : ∀ p h, s.live p = some h → p ≠ 0
  aligned : ∀ p h, s.live p = some h → fixsize h.pages ∣ p
  inside : ∀ p h, s.live p = some h → p + fixsize h.pages ≤ s.buddy.size
  unreserved : ∀ p h x, s.live p = some h → h.Holds p x → ¬ KernelPage fps x
  marked : ∀ x, x < s.buddy.size → (pageFree s.buddy x = true ↔ Unused fps s x)
  counted : ∀ p, p < s.buddy.size →
    (s.buddy.refCnt p ≠ 0 ↔ (∃ h, s.live p = some h) ∨ KernelPage fps p)
  outstanding : ∀ p h, s.live p = some h → s.buddy.refCnt p = h.refs
  pinned : ∀ p, p < s.buddy.size → KernelPage fps p → s.buddy.refCnt p = 1

theorem allocator_safe (hfit : Fits k ekernel) (h : AllocReach (2 ^ k * PGSIZE) ekernel fps s) :
    AllocSafe fps s := by
  obtain ⟨rfl, hs⟩ := h.inv hfit
  have hk : k ≤ 63 := by have := hfit.le; omega
  have h63 : 2 ^ k ≤ 2 ^ 63 := Nat.pow_le_pow_right (by omega) hk
  have hpos := hfit.reservedPages_pos
  have hsize := hs.size
  have htree : ∀ p g, s.live p = some g → InTree k (g.block p) := fun p g hp =>
    hs.tree.inTree _ (.inl ⟨p, g, hp, rfl⟩)
  have hfix : ∀ p g, s.live p = some g → fixsize g.pages = (g.block p).size := fun p g hp =>
    fixsize_eq_clog (hs.holding p g hp).pages_pos ((hs.holding p g hp).pages_le.trans h63)
  have hnot : ∀ p g, s.live p = some g → p < 2 ^ k → ¬ KernelPage (freePageStart k ekernel) p := by
    intro p g hp hlt hker
    have := (kernelPage_iff hfit hlt).mp hker
    have := (hs.holding p g hp).above
    omega
  have hmem : ∀ p g, s.live p = some g → p < 2 ^ k := by
    intro p g hp
    have hcov := (g.block p).covers_first
    rw [(hs.holding p g hp).first] at hcov
    exact (htree p g hp).covers_lt hcov
  constructor
  case fresh =>
    intro n p b hn hle he hne x hx
    rw [hsize] at hle
    rcases hs.alloc_spec hpos hk hn hle with ⟨c, b', hc, ho, _, hct, hf, _⟩ | ⟨hnone, _⟩
    · obtain ⟨rfl, rfl⟩ := Prod.mk.inj (Option.some.inj (hc.symm.trans he))
      have hcov : c.Covers x := by
        rw [Block.covers_iff, Block.size, ho, ← fixsize_eq_clog hn (hle.trans h63)]
        exact hx
      exact (covered_iff hfit hs (hct.covers_lt hcov)).mp (hf x hcov)
    · obtain ⟨rfl, -⟩ := Prod.mk.inj (Option.some.inj (hnone.symm.trans he))
      exact absurd rfl hne
  case disjoint =>
    rintro p q h g hp hq hne x ⟨hx, hx'⟩
    have hcov := (Holding.holds_iff hk (hs.holding p h hp)).mp hx
    have hcov' := (Holding.holds_iff hk (hs.holding q g hq)).mp hx'
    have hsame := hs.tree.separate _ (.inl ⟨p, h, hp, rfl⟩) _ (.inl ⟨q, g, hq, rfl⟩) x hcov hcov'
    apply hne
    rw [← (hs.holding p h hp).first, hsame, (hs.holding q g hq).first]
  case nonzero =>
    intro p h hp
    have := (hs.holding p h hp).above
    omega
  case aligned =>
    intro p h hp
    rw [hfix p h hp]
    exact (hs.holding p h hp).aligned
  case inside =>
    intro p h hp
    have hlast : (h.block p).Covers (p + (h.block p).size - 1) := by
      have := (h.block p).size_pos
      rw [Block.covers_iff, (hs.holding p h hp).first]
      omega
    have := (htree p h hp).covers_lt hlast
    rw [hfix p h hp, hsize]
    omega
  case unreserved =>
    intro p h x hp hx hker
    have hcov := (Holding.holds_iff hk (hs.holding p h hp)).mp hx
    have hlt := (kernelPage_iff hfit ((htree p h hp).covers_lt hcov)).mp hker
    have := (hs.holding p h hp).above
    have := hx.1
    omega
  case marked =>
    intro x hx
    exact pageFree_iff_unused hfit hs (by omega)
  case counted =>
    intro p hp
    rw [hs.refCnt p, expectedRefs, kernelPage_iff hfit (by omega)]
    cases hl : s.live p with
    | some h =>
        have := (hs.holding p h hl).refs_pos
        simp only [Option.some.injEq, exists_eq', true_or, iff_true]
        omega
    | none =>
        simp only [reduceCtorEq, exists_false, false_or]
        by_cases hr : p < reservedPages k ekernel
        · rw [if_pos (by omega)]
          simp [hr]
        · rw [if_neg (by omega)]
          simp [hr]
  case outstanding =>
    intro p h hp
    rw [hs.refCnt p, expectedRefs, hp]
  case pinned =>
    intro p hp hker
    have hnone : s.live p = none := by
      cases hl : s.live p with
      | none => rfl
      | some h => exact absurd hker (hnot p h hl (hmem p h hl))
    rw [hs.refCnt p, expectedRefs, hnone]
    exact if_pos ⟨(kernelPage_iff hfit (by omega)).mp hker, by omega⟩

/-- After `alloc_pages(2)` in a memory of four pages whose first page holds the tables. -/
theorem allocator_safe_four_pages :
    ∃ s, AllocReach (2 ^ 2 * PGSIZE) VM_START (freePageStart 2 VM_START) s ∧
      s.live 2 = some ⟨2, 1⟩ ∧ AllocSafe (freePageStart 2 VM_START) s := by
  have hfit : Fits 2 VM_START := ⟨by decide, by decide⟩
  obtain ⟨b, hb, hres⟩ := buddyInit_spec hfit
  have halloc : ((buddyInit (2 ^ 2 * PGSIZE) VM_START).bind fun x =>
      (buddyAlloc x.1 2).map Prod.fst) = some 2 := by decide
  rw [hb] at halloc
  obtain ⟨⟨p, b'⟩, he, hp⟩ := Option.map_eq_some_iff.mp halloc
  obtain rfl : p = 2 := hp
  have hreach : AllocReach (2 ^ 2 * PGSIZE) VM_START (freePageStart 2 VM_START) _ :=
    .step (.init hb) (.alloc (n := 2) (by decide) (by rw [hres.size]; decide) he)
  exact ⟨_, hreach, rfl, allocator_safe hfit hreach⟩

/-- A naturally aligned run of `fixsize n` pages, all of them free in the allocator's record. -/
def FreeAlignedRun (b : Buddy) (n p : Nat) : Prop :=
  fixsize n ∣ p ∧ p + fixsize n ≤ b.size ∧
    ∀ x, p ≤ x → x < p + fixsize n → pageFree b x = true

theorem freeAlignedRun_iff (hfit : Fits k ekernel) (hs : AllocInv k (reservedPages k ekernel) s) {n : Nat}
    (hn : 1 ≤ n) (hle : n ≤ 2 ^ k) {p : Nat} :
    FreeAlignedRun s.buddy n p ↔ ∃ c : Block, c.order = Nat.clog 2 n ∧ c.first = p ∧ InTree k c ∧
      FreeRun (liveBlocks s.live ∪ reservedBlocks k (reservedPages k ekernel)) c := by
  have hk : k ≤ 63 := by have := hfit.le; omega
  have h63 : 2 ^ k ≤ 2 ^ 63 := Nat.pow_le_pow_right (by omega) hk
  have hj : Nat.clog 2 n ≤ k := Nat.clog_le_of_le_pow hle
  have hsize := hs.size
  rw [FreeAlignedRun, fixsize_eq_clog hn (hle.trans h63)]
  constructor
  · rintro ⟨⟨q, hq⟩, hin, hfree⟩
    have hfirst : (⟨Nat.clog 2 n, q⟩ : Block).first = p := by simp only [Block.first]; rw [hq, Nat.mul_comm]
    have htree : InTree k ⟨Nat.clog 2 n, q⟩ := by
      refine ⟨hj, ?_⟩
      have hsplit : 2 ^ k = 2 ^ Nat.clog 2 n * 2 ^ (k - Nat.clog 2 n) := by
        rw [← Nat.pow_add]; congr 1; omega
      have hpos := Nat.two_pow_pos (Nat.clog 2 n)
      refine Nat.lt_of_mul_lt_mul_left (a := 2 ^ Nat.clog 2 n) ?_
      rw [← hsplit, ← hq]
      omega
    refine ⟨_, rfl, hfirst, htree, fun x hx => ?_⟩
    have hcov := Block.covers_iff.mp hx
    rw [hfirst, Block.size] at hcov
    exact (pageFree_iff hs.size hs.tree (htree.covers_lt hx)).mp (hfree x hcov.1 hcov.2)
  · rintro ⟨c, ho, rfl, hc, hf⟩
    have hsz : 2 ^ Nat.clog 2 n = c.size := by rw [Block.size, ho]
    rw [hsz]
    refine ⟨Nat.dvd_mul_left _ _, ?_, fun x hx hx' => ?_⟩
    · have hlast : c.Covers (c.first + c.size - 1) := by
        have := c.size_pos
        rw [Block.covers_iff]
        omega
      have := hc.covers_lt hlast
      have := c.size_pos
      omega
    · have hcov : c.Covers x := Block.covers_iff.mpr ⟨hx, hx'⟩
      exact (pageFree_iff hs.size hs.tree (hc.covers_lt hcov)).mpr (hf x hcov)

/-- `buddy_alloc` takes the lowest free aligned run and marks exactly it, or there is none and it
returns 0 with the allocator as it was. -/
theorem buddyAlloc_lowest_first (hfit : Fits k ekernel) (h : AllocReach (2 ^ k * PGSIZE) ekernel fps s)
    {n : Nat} (hn : 1 ≤ n) (hle : n ≤ s.buddy.size) :
    (∀ x, x < s.buddy.size → (pageFree s.buddy x = true ↔ Unused fps s x)) ∧
    ∃ p b, buddyAlloc s.buddy n = some (p, b) ∧ b.size = s.buddy.size ∧
      (p = 0 ↔ ¬ ∃ q, FreeAlignedRun s.buddy n q) ∧
      (p = 0 → b = s.buddy) ∧
      (p ≠ 0 → FreeAlignedRun s.buddy n p ∧ (∀ q, FreeAlignedRun s.buddy n q → p ≤ q) ∧
        ∀ x, x < s.buddy.size →
          (pageFree b x = true ↔ pageFree s.buddy x = true ∧ ¬ (p ≤ x ∧ x < p + fixsize n))) := by
  obtain ⟨rfl, hs⟩ := h.inv hfit
  have hk : k ≤ 63 := by have := hfit.le; omega
  have h63 : 2 ^ k ≤ 2 ^ 63 := Nat.pow_le_pow_right (by omega) hk
  have hsize := hs.size
  rw [hsize] at hle ⊢
  refine ⟨fun x hx => pageFree_iff_unused hfit hs hx, ?_⟩
  have hrun := fun q => freeAlignedRun_iff hfit hs hn hle (p := q)
  rcases hs.alloc_spec hfit.reservedPages_pos hk hn hle with
    ⟨c, b, he, ho, hne, hc, hf, hmin, ht, hs'⟩ | ⟨he, hnone⟩
  · refine ⟨c.first, b, he, hs'.size, ?_, fun h0 => absurd h0 hne, fun _ => ⟨?_, ?_, ?_⟩⟩
    · exact ⟨fun h0 => absurd h0 hne, fun hno => absurd ⟨_, (hrun _).mpr ⟨c, ho, rfl, hc, hf⟩⟩ hno⟩
    · exact (hrun _).mpr ⟨c, ho, rfl, hc, hf⟩
    · intro q hq
      obtain ⟨d, hd, rfl, hdt, hdf⟩ := (hrun q).mp hq
      exact hmin d (hd.trans ho.symm) hdt hdf
    · intro x hx
      have hcov : c.Covers x ↔ c.first ≤ x ∧ x < c.first + fixsize n := by
        rw [Block.covers_iff, Block.size, ho, fixsize_eq_clog hn (hle.trans h63)]
      rw [pageFree_iff hs'.size ht hx, pageFree_iff hs.size hs.tree hx, ← hcov]
      constructor
      · exact fun hall => ⟨fun d hd => hall d (.inr hd), hall c (.inl rfl)⟩
      · rintro ⟨hall, hnc⟩ d (rfl | hd)
        · exact hnc
        · exact hall d hd
  · refine ⟨0, s.buddy, he, hsize, ?_, fun _ => rfl, fun h0 => absurd rfl h0⟩
    refine iff_of_true rfl ?_
    rintro ⟨q, hq⟩
    obtain ⟨d, hd, _, hdt, hdf⟩ := (hrun q).mp hq
    exact hnone d hd hdt hdf

/-- In the fresh allocator over four pages, the run for a request of two pages starts at page 2. -/
theorem buddyAlloc_lowest_first_four_pages :
    ∃ b : Buddy, AllocReach (2 ^ 2 * PGSIZE) VM_START (freePageStart 2 VM_START) ⟨b, fun _ => none⟩ ∧
      ∃ p b', buddyAlloc b 2 = some (p, b') ∧ (p = 0 ↔ ¬ ∃ q, FreeAlignedRun b 2 q) := by
  have hfit : Fits 2 VM_START := ⟨by decide, by decide⟩
  obtain ⟨b, hb, hres⟩ := buddyInit_spec hfit
  have hreach := AllocReach.init hb
  obtain ⟨_, p, b', he, _, hzero, _⟩ :=
    buddyAlloc_lowest_first hfit hreach (n := 2) (by decide) (by rw [hres.size]; decide)
  exact ⟨b, hreach, p, b', he, hzero⟩

/-- Two histories end with the same live blocks: same first pages, same sizes. -/
def SameBlocks (s t : Allocator) : Prop :=
  ∀ p, (s.live p).map (fun h => fixsize h.pages) = (t.live p).map fun h => fixsize h.pages

theorem SameBlocks.liveBlocks {t : Allocator} {r r' : Nat} (hk : k ≤ 63) (hs : AllocInv k r s)
    (ht : AllocInv k r' t) (h : SameBlocks s t) : liveBlocks s.live ⊆ liveBlocks t.live := by
  have h63 : 2 ^ k ≤ 2 ^ 63 := Nat.pow_le_pow_right (by omega) hk
  rintro c ⟨p, g, hp, rfl⟩
  have hsame := h p
  rw [hp] at hsame
  cases hq : t.live p with
  | none => rw [hq] at hsame; cases hsame
  | some g' =>
      rw [hq] at hsame
      have ok := hs.holding p g hp
      have ok' := ht.holding p g' hq
      have hfix : fixsize g.pages = fixsize g'.pages := Option.some.inj hsame
      rw [fixsize_eq_clog ok.pages_pos (ok.pages_le.trans h63),
        fixsize_eq_clog ok'.pages_pos (ok'.pages_le.trans h63)] at hfix
      have hord := Nat.pow_right_injective (le_refl 2) hfix
      exact ⟨p, g', hq, by simp only [Holding.block, hord]⟩

theorem SameBlocks.symm {t : Allocator} (h : SameBlocks s t) : SameBlocks t s := fun p => (h p).symm

theorem bitmap_eq_of_sameBlocks {t : Allocator} {r : Nat} (hk : k ≤ 63) (hs : AllocInv k r s)
    (ht : AllocInv k r t) (h : SameBlocks s t) {i : Nat} (hi : i < 2 * s.buddy.size) :
    s.buddy.bitmap i = t.buddy.bitmap i := by
  have hblocks : ZjuOs.liveBlocks s.live = ZjuOs.liveBlocks t.live :=
    Set.Subset.antisymm (h.liveBlocks hk hs ht) (h.symm.liveBlocks hk ht hs)
  have htree := ht.tree
  rw [← hblocks] at htree
  exact hs.tree.ext htree (by rw [← hs.size]; exact hi)

/-- The table depends on the live blocks alone. So releasing a block just allocated restores it, and
releasing two blocks commutes. -/
theorem bitmap_history_independent {t : Allocator} (hfit : Fits k ekernel)
    (hs : AllocReach (2 ^ k * PGSIZE) ekernel fps s) (ht : AllocReach (2 ^ k * PGSIZE) ekernel fps t) :
    (SameBlocks s t → ∀ i, i < 2 * s.buddy.size → s.buddy.bitmap i = t.buddy.bitmap i) ∧
    (∀ n p b, 1 ≤ n → n ≤ s.buddy.size → buddyAlloc s.buddy n = some (p, b) → p ≠ 0 →
      ∀ i, i < 2 * s.buddy.size → (pageRefDec b p).bitmap i = s.buddy.bitmap i) ∧
    (∀ p q h g, s.live p = some h → s.live q = some g → p ≠ q → h.refs = 1 → g.refs = 1 →
      ∀ i, i < 2 * s.buddy.size →
        (pageRefDec (pageRefDec s.buddy p) q).bitmap i =
          (pageRefDec (pageRefDec s.buddy q) p).bitmap i) := by
  obtain ⟨rfl, hsi⟩ := hs.inv hfit
  obtain ⟨-, hti⟩ := ht.inv hfit
  have hk : k ≤ 63 := by have := hfit.le; omega
  refine ⟨fun h i hi => bitmap_eq_of_sameBlocks hk hsi hti h hi, ?_, ?_⟩
  · intro n p b hn hle he hne i hi
    rw [hsi.size] at hle
    rcases hsi.alloc_spec hfit.reservedPages_pos hk hn hle with
      ⟨c, b', hc, ho, _, hct, hf, _, _, hs'⟩ | ⟨hnone, _⟩
    · rw [hc] at he
      cases he
      have hfresh : s.live c.first = none := by
        cases hl : s.live c.first with
        | none => rfl
        | some h =>
            have hcov := (h.block c.first).covers_first
            rw [(hsi.holding _ _ hl).first] at hcov
            exact absurd hcov (hf _ c.covers_first _ (.inl ⟨_, h, hl, rfl⟩))
      have hback := hs'.dec (Function.update_self ..)
      refine (bitmap_eq_of_sameBlocks hk hsi hback ?_ hi).symm
      intro q
      simp only [if_true, Function.update_idem]
      by_cases hq : q = c.first
      · subst hq
        rw [Function.update_self, hfresh]
      · rw [Function.update_of_ne hq]
    · rw [hnone] at he
      cases he
      exact absurd rfl hne
  · intro p q h g hp hq hne hone hone' i hi
    have hpq := (hsi.dec hp).dec (p := q) (h := g) (by simp only [Function.update_of_ne hne.symm, hq])
    have hqp := (hsi.dec hq).dec (p := p) (h := h) (by simp only [Function.update_of_ne hne, hp])
    refine bitmap_eq_of_sameBlocks hk hpq hqp ?_ (by rw [hpq.size, ← hsi.size]; exact hi)
    intro x
    simp only [hone, hone', if_true]
    rw [Function.update_comm hne.symm]

/-- Two pages and one block of two pages in four pages: both orders of release agree. -/
theorem bitmap_history_independent_four_pages :
    ∃ s, AllocReach (2 ^ 2 * PGSIZE) VM_START (freePageStart 2 VM_START) s ∧
      s.live 1 = some ⟨1, 1⟩ ∧ s.live 2 = some ⟨2, 1⟩ ∧ ∀ i, i < 2 * s.buddy.size →
        (pageRefDec (pageRefDec s.buddy 1) 2).bitmap i = (pageRefDec (pageRefDec s.buddy 2) 1).bitmap i := by
  have hfit : Fits 2 VM_START := ⟨by decide, by decide⟩
  obtain ⟨b, hb, hres⟩ := buddyInit_spec hfit
  have halloc : ((buddyInit (2 ^ 2 * PGSIZE) VM_START).bind fun x =>
      (buddyAlloc x.1 1).bind fun y => (buddyAlloc y.2 2).map fun z => (y.1, z.1)) = some (1, 2) := by
    decide
  rw [hb, Option.bind_some] at halloc
  obtain ⟨⟨p, b₁⟩, he, halloc⟩ := Option.bind_eq_some_iff.mp halloc
  obtain ⟨⟨q, b₂⟩, he', hpq⟩ := Option.map_eq_some_iff.mp halloc
  obtain ⟨rfl, rfl⟩ : p = 1 ∧ q = 2 := Prod.mk.inj hpq
  have hfirst : AllocReach (2 ^ 2 * PGSIZE) VM_START (freePageStart 2 VM_START) _ :=
    .step (.init hb) (.alloc (n := 1) (by decide) (by rw [hres.size]; decide) he)
  have hsize : b₁.size = 2 ^ 2 := (hfirst.inv hfit).2.size
  have hreach : AllocReach (2 ^ 2 * PGSIZE) VM_START (freePageStart 2 VM_START) _ :=
    .step hfirst (.alloc (n := 2) (by decide) (by simp only; rw [hsize]; decide) he')
  exact ⟨_, hreach, rfl, rfl, (bitmap_history_independent hfit hreach hreach).2.2 1 2 _ _ rfl rfl
    (by decide) rfl rfl⟩

end Safety

end ZjuOs
