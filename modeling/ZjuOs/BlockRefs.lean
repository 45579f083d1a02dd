import ZjuOs.Pages
import Mathlib.Data.List.Induction

/-!
References to the pages of a block. `get_page` and `put_page` count per page, the allocator keeps one count
per block: the two agree on blocks of a single page.
-/
namespace ZjuOs
open BuddyTree Exec

inductive PageCall
  | get (pfn : Nat)
  | put (pfn : Nat)
  | alloc (nrpages : Nat)
  deriving DecidableEq

/-- The address of a page in the kernel. -/
def pfnVa (pfn : Nat) : Nat := PA2VA (PFN2PHYS pfn)

def vaPfn (va : Nat) : Nat := PHYS2PFN (VA2PA va)

def PageCall.run : PageCall → K Unit
  | .get pfn => do
      let _ ← getPage (pfnVa pfn)
  | .put pfn => putPage (pfnVa pfn)
  | .alloc nrpages => do
      let _ ← allocPages nrpages

def runCalls : List PageCall → K Unit
  | [] => return ()
  | c :: cs => do
      c.run
      runCalls cs

/-- The number of pages that `alloc_pages(n)` hands out. -/
def blockPages (n : Nat) : Nat := if n = 0 then 1 else fixsize n

/-- The references to page `x` of a block after the calls `done`. -/
def references (done : List PageCall) (x : Nat) : Nat := 1 + done.count (.get x) - done.count (.put x)

/-- The pages `x` from `p` of a block for a request of `n`. -/
def InBlock (p n x : Nat) : Prop := p ≤ x ∧ x < p + blockPages n

/-- The calls stay on the block, and no page is put more often than it has been got. -/
structure Balanced (p n : Nat) (calls : List PageCall) : Prop where
  get : ∀ x, .get x ∈ calls → InBlock p n x
  put : ∀ x, .put x ∈ calls → InBlock p n x
  alloc : ∀ m, .alloc m ∈ calls → m ≤ 2 ^ 63
  balanced : ∀ done, done <+: calls → ∀ x, done.count (.put x) ≤ done.count (.get x)

/-- Every page of the block has its references, and no allocation overlaps the block. -/
structure BlockKept (p n : Nat) (done : List PageCall) (s : KState) : Prop where
  counted : ∀ x, InBlock p n x →
    Ends (getPageRefcnt (pfnVa x)) s (fun v _ => v = references done x) fun _ _ => False
  apart : ∀ m, m ≤ 2 ^ 63 →
    Ends (allocPages m) s (fun va _ => va ≠ 0 → ∀ x, InBlock p n x → ¬ InBlock (vaPfn va) m x) fun _ _ => False

section Calls
variable {s : KState} {n m p x : Nat} {calls done : List PageCall} {c : PageCall}

theorem runCalls_append : runCalls (done ++ calls) = (do runCalls done; runCalls calls) := by
  induction done with
  | nil => rfl
  | cons c done ih =>
      rw [List.cons_append, runCalls, runCalls, ih, bind_assoc]

theorem vaPfn_pfnVa (hx : x < 2 ^ 20) : vaPfn (pfnVa x) = x := by
  have hphys : PFN2PHYS x < 2 ^ 64 := Nat.mod_lt _ (Nat.two_pow_pos 64)
  rw [vaPfn, pfnVa, VA2PA_PA2VA hphys, PHYS2PFN_PFN2PHYS (by omega)]

theorem pfnVa_ne_zero (hx : x < 2 ^ 20) : pfnVa x ≠ 0 := by
  have hphys : PFN2PHYS x = x * 4096 + PHY_START := by
    simp only [PFN2PHYS, PHY_START, Nat.shiftLeft_eq]
    omega
  simp only [pfnVa, hphys, PA2VA, PA2VA_OFFSET, PHY_START]
  omega

theorem ends_getPageRefcnt_at {Q : Nat → KState → Prop} {E : Halt → KState → Prop} (hx : x < 2 ^ 20) :
    Ends (getPageRefcnt (pfnVa x)) s Q E ↔ Q (s.buddy.refCnt x) s := by
  have hpfn : PHYS2PFN (VA2PA (pfnVa x)) = x := vaPfn_pfnVa hx
  rw [getPageRefcnt, ends_bind, ends_get, ends_pure, hpfn]

theorem ends_get_at {E : Halt → KState → Prop} {Q : Unit → KState → Prop} (hx : x < 2 ^ 20) :
    Ends (PageCall.get x).run s Q E ↔
      Q () (if s.buddy.refCnt x = 0 then s else s.withBuddy (pageRefInc s.buddy x)) := by
  have hpfn : PHYS2PFN (VA2PA (pfnVa x)) = x := vaPfn_pfnVa hx
  rw [PageCall.run, ends_bind, getPage, ends_bind, ends_get, hpfn]
  by_cases h0 : s.buddy.refCnt x = 0
  · rw [if_pos h0, if_pos h0, ends_pure, ends_pure]
  · rw [if_neg h0, if_neg h0, ends_bind, ends_modify, ends_pure, ends_pure]

theorem ends_put_at {E : Halt → KState → Prop} {Q : Unit → KState → Prop} (hx : x < 2 ^ 20) :
    Ends (PageCall.put x).run s Q E ↔ Q () (s.withBuddy (pageRefDec s.buddy x)) := by
  have hpfn : PHYS2PFN (VA2PA (pfnVa x)) = x := vaPfn_pfnVa hx
  rw [PageCall.run, putPage, ends_modify, hpfn]

theorem ends_allocPages {E : Halt → KState → Prop} {Q : Nat → KState → Prop} {q : Nat} {b : Buddy}
    (h : buddyAlloc s.buddy n = some (q, b)) :
    Ends (allocPages n) s Q E ↔ Q (if q = 0 then 0 else pfnVa q) (s.withBuddy b) := by
  rw [allocPages, ends_bind, ends_get, h]
  simp only [ends_bind, ends_modify, ends_pure]
  rfl

end Calls

section Any
variable {k r n p x : Nat} {s : Allocator}

theorem blockPages_one : blockPages 1 = 1 := by decide

theorem blockPages_eq (hn : 1 ≤ n) (hlt : n ≤ 2 ^ 63) : blockPages n = 2 ^ Nat.clog 2 n := by
  rw [blockPages, if_neg (by omega), fixsize_eq_clog hn hlt]

theorem buddyAlloc_zero (b : Buddy) : buddyAlloc b 0 = buddyAlloc b 1 := by
  have h1 : isPowerOf2 1 = true := by decide
  rw [buddyAlloc, buddyAlloc, h1]
  rfl

/-- A request beyond the memory fails. -/
theorem AllocInv.alloc_large (hs : AllocInv k r s) (hn : 2 ^ k < n) (hlt : n ≤ 2 ^ 63) :
    buddyAlloc s.buddy n = some (0, s.buddy) := by
  have hroot := hs.tree.root
  have hle := longest_le (liveBlocks s.live ∪ reservedBlocks k r) k 0
  have hround : n ≤ 2 ^ Nat.clog 2 n := Nat.le_pow_clog (by omega) n
  rw [buddyAlloc, request_eq (by omega) hlt]
  exact if_pos (by omega)

theorem AllocInv.disjoint (hs : AllocInv k r s) (hk : k ≤ 63) {p q : Nat} {h g : Holding} (hp : s.live p = some h)
    (hq : s.live q = some g) (hne : p ≠ q) (x : Nat) : ¬ (h.Holds p x ∧ g.Holds q x) := by
  rintro ⟨hx, hx'⟩
  have hcov := (Holding.holds_iff hk (hs.holding p h hp)).mp hx
  have hcov' := (Holding.holds_iff hk (hs.holding q g hq)).mp hx'
  have hsame := hs.tree.separate _ (.inl ⟨p, h, hp, rfl⟩) _ (.inl ⟨q, g, hq, rfl⟩) x hcov hcov'
  apply hne
  rw [← (hs.holding p h hp).first, hsame, (hs.holding q g hq).first]

/-- What any request does. -/
theorem AllocInv.alloc_any (hs : AllocInv k r s) (hr : 0 < r) (hk : k ≤ 63) (hn : n ≤ 2 ^ 63) :
    (∃ q b, buddyAlloc s.buddy n = some (q, b) ∧ q ≠ 0 ∧ q < 2 ^ k ∧ s.live q = none ∧
      AllocInv k r ⟨b, Function.update s.live q (some ⟨max n 1, 1⟩)⟩) ∨
    buddyAlloc s.buddy n = some (0, s.buddy) := by
  have hsmall : ∀ m, 1 ≤ m → m ≤ 2 ^ 63 → (∃ q b, buddyAlloc s.buddy m = some (q, b) ∧ q ≠ 0 ∧ q < 2 ^ k ∧
      s.live q = none ∧ AllocInv k r ⟨b, Function.update s.live q (some ⟨m, 1⟩)⟩) ∨
      buddyAlloc s.buddy m = some (0, s.buddy) := by
    intro m hm hlt
    by_cases hle : m ≤ 2 ^ k
    · rcases hs.alloc_spec hr hk hm hle with ⟨c, b, he, -, hne, hin, hfree, -, -, hinv⟩ | ⟨he, -⟩
      · refine .inl ⟨c.first, b, he, hne, hin.covers_lt c.covers_first, ?_, hinv⟩
        cases hl : s.live c.first with
        | none => rfl
        | some h =>
            have hcov := (h.block c.first).covers_first
            rw [(hs.holding _ _ hl).first] at hcov
            exact absurd hcov (hfree _ c.covers_first _ (.inl ⟨_, h, hl, rfl⟩))
      · exact .inr he
    · exact .inr (hs.alloc_large (by omega) hlt)
  rcases Nat.eq_zero_or_pos n with rfl | hpos
  · rw [buddyAlloc_zero]
    exact hsmall 1 (Nat.le_refl 1) (Nat.one_le_two_pow)
  · rw [Nat.max_eq_left hpos]
    exact hsmall n hpos hn

theorem holds_iff_inBlock {m : Nat} : (⟨max n 1, m⟩ : Holding).Holds p x ↔ InBlock p n x := by
  rw [Holding.Holds, InBlock, blockPages]
  rcases Nat.eq_zero_or_pos n with rfl | hpos
  · have hone : fixsize (max 0 1) = 1 := by decide
    rw [if_pos rfl, hone]
  · rw [if_neg (by omega), Nat.max_eq_left hpos]

end Any

section Runs
variable {img : Image} {a : Allocator} {s t : KState} {n p x : Nat} {calls done : List PageCall} {c : PageCall}

/-- The run of a block of one page: it is live, and its count is that of its references. -/
structure OnePage (img : Image) (p : Nat) (done : List PageCall) (s : KState) (a : Allocator) : Prop where
  inv : AllocInv img.order (reservedPages img.order img.ekernel) a
  buddy : s.buddy = a.buddy
  live : a.live p = some ⟨1, references done p⟩

theorem references_snoc_of_ne (hget : c ≠ .get p) (hput : c ≠ .put p) :
    references (done ++ [c]) p = references done p := by
  rw [references, references, List.count_append, List.count_append, List.count_singleton, List.count_singleton,
    if_neg (by simpa using hget), if_neg (by simpa using hput), Nat.add_zero, Nat.add_zero]

theorem references_get : references (done ++ [.get p]) p = 1 + done.count (.get p) + 1 - done.count (.put p) := by
  rw [references, List.count_append, List.count_append, List.count_singleton, List.count_singleton,
    if_pos (beq_self_eq_true _), if_neg (by simp)]
  rfl

theorem references_put : references (done ++ [.put p]) p = 1 + done.count (.get p) - (done.count (.put p) + 1) := by
  rw [references, List.count_append, List.count_append, List.count_singleton, List.count_singleton,
    if_pos (beq_self_eq_true _), if_neg (by simp), Nat.add_zero]

theorem OnePage.refCnt (h : OnePage img p done s a) : s.buddy.refCnt p = references done p := by
  rw [h.buddy, h.inv.refCnt p, expectedRefs, h.live]

theorem OnePage.get (h : OnePage img p done s a) (hp : p < 2 ^ 20)
    (hbal : done.count (.put p) ≤ done.count (.get p)) (hlt : references (done ++ [.get p]) p < 2 ^ 64) :
    Ends (PageCall.get p).run s (fun _ t => ∃ a', OnePage img p (done ++ [.get p]) t a') fun _ _ => False := by
  have hcnt := h.refCnt
  have hnext : references (done ++ [.get p]) p = references done p + 1 := by
    rw [references_get, references]
    omega
  have hpos : s.buddy.refCnt p ≠ 0 := by
    rw [hcnt, references]
    omega
  rw [hnext] at hlt
  refine (ends_get_at hp).mpr ?_
  rw [if_neg hpos]
  refine ⟨_, h.inv.inc h.live hlt, ?_, ?_⟩
  · rw [KState.withBuddy_buddy, h.buddy]
  · rw [hnext]
    exact Function.update_self ..

theorem OnePage.put (h : OnePage img p done s a) (hp : p < 2 ^ 20)
    (hbal : done.count (.put p) + 1 ≤ done.count (.get p)) :
    Ends (PageCall.put p).run s (fun _ t => ∃ a', OnePage img p (done ++ [.put p]) t a') fun _ _ => False := by
  have hnext : references (done ++ [.put p]) p = references done p - 1 := by
    rw [references_put, references]
    omega
  have hmore : references done p ≠ 1 := by
    rw [references]
    omega
  have hinv := h.inv.dec h.live
  rw [if_neg hmore] at hinv
  refine (ends_put_at hp).mpr ⟨_, hinv, ?_, ?_⟩
  · rw [KState.withBuddy_buddy, h.buddy]
  · rw [hnext]
    exact Function.update_self ..

theorem OnePage.alloc (h : OnePage img p done s a) {m : Nat} (hm : m ≤ 2 ^ 63) :
    Ends (PageCall.alloc m).run s (fun _ t => ∃ a', OnePage img p (done ++ [.alloc m]) t a') fun _ _ => False := by
  have hk := img.order_le
  have hsame : references (done ++ [.alloc m]) p = references done p :=
    references_snoc_of_ne PageCall.noConfusion PageCall.noConfusion
  rw [PageCall.run, ends_bind]
  rcases h.inv.alloc_any img.fits.reservedPages_pos (by omega) hm with ⟨q, b, he, -, -, hnone, hinv⟩ | he
  · rw [← h.buddy] at he
    have hpq : p ≠ q := by
      rintro rfl
      rw [h.live] at hnone
      cases hnone
    refine (ends_allocPages he).mpr (ends_pure.mpr ⟨_, hinv, rfl, ?_⟩)
    rw [hsame]
    exact (Function.update_of_ne hpq _ _).trans h.live
  · rw [← h.buddy] at he
    refine (ends_allocPages he).mpr (ends_pure.mpr ⟨a, h.inv, h.buddy, ?_⟩)
    rw [hsame, h.live]

/-- No allocation overlaps the page while it is live. -/
theorem OnePage.kept (h : OnePage img p done s a) (hp : p < 2 ^ 20) (hn : blockPages n = 1) : BlockKept p n done s := by
  have hk := img.order_le
  have hone : ∀ x, InBlock p n x → x = p := fun x hx => by
    obtain ⟨hlo, hhi⟩ := hx
    omega
  refine ⟨fun x hx => ?_, fun m hm => ?_⟩
  · rw [hone x hx]
    exact (ends_getPageRefcnt_at hp).mpr h.refCnt
  · rcases h.inv.alloc_any img.fits.reservedPages_pos (by omega) hm with ⟨q, b, he, hq, hlt, hnone, hinv⟩ | he
    · rw [← h.buddy] at he
      refine (ends_allocPages he).mpr ?_
      rw [if_neg hq]
      intro _ x hx hin
      rw [hone x hx, vaPfn_pfnVa (by have := img.two_pow_order_le; omega), ← holds_iff_inBlock (m := 1)] at hin
      have hpq : p ≠ q := by
        rintro rfl
        rw [h.live] at hnone
        cases hnone
      have hold : Function.update a.live q (some ⟨max m 1, 1⟩) p = some ⟨1, references done p⟩ := by
        rw [Function.update_of_ne hpq, h.live]
      refine hinv.disjoint (by omega) hold (Function.update_self ..) hpq p ⟨⟨Nat.le_refl p, ?_⟩, hin⟩
      have h1 : fixsize 1 = 1 := by decide
      rw [h1]
      omega
    · rw [← h.buddy] at he
      refine (ends_allocPages he).mpr ?_
      rw [if_pos rfl]
      exact fun h0 => absurd rfl h0

/-- The calls on a block of one page keep it live. -/
theorem OnePage.run_calls (h : OnePage img p [] s a) (hp : p < 2 ^ 20) (hn : blockPages n = 1)
    (hbal : Balanced p n calls) (hlt : ∀ done, done <+: calls → references done p < 2 ^ 64)
    (hdone : done <+: calls) :
    Ends (runCalls done) s (fun _ t => ∃ a', OnePage img p done t a') fun _ _ => False := by
  induction done using List.reverseRecOn with
  | nil => exact ends_pure.mpr ⟨a, h⟩
  | append_singleton done c ih =>
      have hpre : done <+: calls := (List.prefix_append done [c]).trans hdone
      have hmem : c ∈ calls := hdone.subset (List.mem_append_right _ List.mem_cons_self)
      have hbefore := hbal.balanced done hpre p
      have hafter := hbal.balanced _ hdone p
      rw [runCalls_append, ends_bind]
      refine (ih hpre).mono ?_ fun _ _ hno => hno
      rintro _ t ⟨a', ht⟩
      have hsingle : runCalls [c] = c.run := by
        rw [runCalls, runCalls]
        exact bind_pure _
      rw [hsingle]
      cases c with
      | get x =>
          have hx : x = p := by
            obtain ⟨hlo, hhi⟩ := hbal.get x hmem
            omega
          rw [hx] at hdone ⊢
          exact ht.get hp hbefore (hlt _ hdone)
      | put x =>
          have hx : x = p := by
            obtain ⟨hlo, hhi⟩ := hbal.put x hmem
            omega
          rw [hx] at hdone hafter ⊢
          rw [List.count_append, List.count_append, List.count_singleton, List.count_singleton,
            if_pos (beq_self_eq_true _), if_neg (by simp), Nat.add_zero] at hafter
          exact ht.put hp hafter
      | alloc m => exact ht.alloc (hbal.alloc m hmem)

/-- The counts of the allocator are 64-bit words. -/
def CountsFit (s : KState) : Prop := ∀ x, s.buddy.refCnt x < 2 ^ 64

theorem countsFit_put (h : CountsFit s) : CountsFit (s.withBuddy (pageRefDec s.buddy x)) := by
  intro y
  have hy := h y
  have hx := h x
  have hfree : ∀ b : Buddy, (buddyFree b x).refCnt = b.refCnt := fun b => by
    rw [buddyFree]
    split <;> rfl
  rw [KState.withBuddy_buddy, pageRefDec]
  by_cases hpos : 0 < s.buddy.refCnt x
  · have hcnt : Function.update s.buddy.refCnt x (s.buddy.refCnt x - 1) y < 2 ^ 64 := by
      rw [Function.update_apply]
      split <;> omega
    simp only [if_pos hpos]
    split
    · rw [hfree]
      exact hcnt
    · exact hcnt
  · simp only [if_neg hpos]
    split
    · rw [hfree]
      exact hy
    · exact hy

theorem countsFit_alloc {b : Buddy} {q : Nat} (h : CountsFit s) (he : buddyAlloc s.buddy n = some (q, b)) :
    CountsFit (s.withBuddy b) := by
  intro y
  have hy := h y
  rw [buddyAlloc] at he
  rw [KState.withBuddy_buddy]
  generalize (if n ≤ 0 then 1 else if !isPowerOf2 n then fixsize n else n) = m at he
  dsimp only at he
  split at he
  · cases he
    exact hy
  · cases hd : allocDescend s.buddy.bitmap m 66 0 s.buddy.size with
    | none =>
        rw [hd] at he
        cases he
    | some o =>
        rw [hd] at he
        cases he
        dsimp only
        rw [Function.update_apply]
        split
        · exact Nat.one_lt_two_pow (by decide)
        · exact hy

theorem PageCall.countsFit (h : CountsFit s) (hget : ∀ x, c = .get x → x < 2 ^ 20) (hput : ∀ x, c = .put x → x < 2 ^ 20) :
    Ends c.run s (fun _ t => CountsFit t) fun _ _ => True := by
  cases c with
  | get x =>
      refine (ends_get_at (hget x rfl)).mpr fun y => ?_
      have hy := h y
      split
      · exact hy
      · rw [KState.withBuddy_buddy, pageRefInc]
        dsimp only
        rw [Function.update_apply]
        split
        · exact Nat.mod_lt _ (Nat.two_pow_pos 64)
        · exact hy
  | put x => exact (ends_put_at (hput x rfl)).mpr (countsFit_put h)
  | alloc m =>
      rw [PageCall.run, ends_bind]
      cases he : buddyAlloc s.buddy m with
      | none =>
          rw [allocPages, ends_bind, ends_get, he]
          exact ends_throw.mpr trivial
      | some o => exact (ends_allocPages he).mpr (ends_pure.mpr (countsFit_alloc h he))

theorem runCalls_countsFit (h : CountsFit s) (hget : ∀ x, .get x ∈ calls → x < 2 ^ 20)
    (hput : ∀ x, .put x ∈ calls → x < 2 ^ 20) : Ends (runCalls calls) s (fun _ t => CountsFit t) fun _ _ => True := by
  induction calls generalizing s with
  | nil => exact ends_pure.mpr h
  | cons c calls ih =>
      rw [runCalls, ends_bind]
      refine (PageCall.countsFit h (fun x hx => hget x (by rw [hx]; exact List.mem_cons_self))
        fun x hx => hput x (by rw [hx]; exact List.mem_cons_self)).mono (fun _ t ht => ?_) fun _ _ ht => ht
      exact ih ht (fun x hx => hget x (List.mem_cons_of_mem _ hx)) fun x hx => hput x (List.mem_cons_of_mem _ hx)

/-- The block of a successful `alloc_pages`. -/
theorem AllocInv.ends_allocPages (h : AllocInv img.order (reservedPages img.order img.ekernel) a)
    (hs : s.buddy = a.buddy) (hn : n ≤ 2 ^ 63) :
    Ends (allocPages n) s (fun va t => va ≠ 0 → ∃ p b, va = pfnVa p ∧ p < 2 ^ img.order ∧
      t = s.withBuddy b ∧ AllocInv img.order (reservedPages img.order img.ekernel)
        ⟨b, Function.update a.live p (some ⟨max n 1, 1⟩)⟩) fun _ _ => False := by
  have hk := img.order_le
  rcases h.alloc_any img.fits.reservedPages_pos (by omega) hn with ⟨q, b, he, hq, hlt, -, hnew⟩ | he
  · rw [← hs] at he
    exact (ZjuOs.ends_allocPages he).mpr fun _ => ⟨q, b, if_neg hq, hlt, rfl, hnew⟩
  · rw [← hs] at he
    exact (ZjuOs.ends_allocPages he).mpr fun hne => absurd (if_pos rfl) hne

theorem blockPages_pos (hn : n ≤ 2 ^ 63) : 0 < blockPages n := by
  rcases Nat.eq_zero_or_pos n with rfl | hpos
  · decide
  · rw [blockPages_eq hpos hn]
    exact Nat.two_pow_pos _

theorem one_lt_blockPages (hn : 2 ≤ n) (hlt : n ≤ 2 ^ 63) : 1 < blockPages n := by
  rw [blockPages_eq (by omega) hlt]
  exact Nat.one_lt_two_pow (Nat.pos_iff_ne_zero.mp (Nat.clog_pos (Nat.le_refl 2) hn))

section Block
variable {k r refs : Nat} (h : AllocInv k r a) (hk : k ≤ 63) (hl : a.live p = some ⟨max n 1, refs⟩)
include h hk hl

theorem AllocInv.inBlock_lt (hx : InBlock p n x) : x < 2 ^ k :=
  (h.tree.inTree _ (.inl ⟨p, _, hl, rfl⟩)).covers_lt
    ((Holding.holds_iff hk (h.holding p _ hl)).mp (holds_iff_inBlock.mpr hx))

/-- Only the first page of a block has a count. -/
theorem AllocInv.uncounted (hx : InBlock p n x) (hne : x ≠ p) : a.buddy.refCnt x = 0 := by
  have hnone : a.live x = none := by
    cases hg : a.live x with
    | none => rfl
    | some g =>
        have hpos := (h.holding x g hg).pages_pos
        have hholds : g.Holds x x := by
          refine (Holding.holds_iff hk (h.holding x g hg)).mpr ?_
          have hcov := (g.block x).covers_first
          rwa [(h.holding x g hg).first] at hcov
        exact absurd ⟨holds_iff_inBlock.mpr hx, hholds⟩ (h.disjoint hk hl hg (Ne.symm hne) x)
  have habove := (h.holding p _ hl).above
  have hle := hx.1
  rw [h.refCnt, expectedRefs, hnone]
  exact if_neg (by omega)

end Block

theorem AllocInv.countsFit {k r : Nat} (h : AllocInv k r a) (hs : s.buddy = a.buddy) : CountsFit s := fun y => by
  rw [hs, h.refCnt, expectedRefs]
  split
  · next g hg => exact (h.holding y g hg).refs_lt
  · split <;> decide

/-- The counts of a block that `alloc_pages` has handed out are right along the calls on it, exactly when it has one
page and no count reaches `2 ^ 64`. -/
theorem block_kept_iff {fps va : Nat} (hreach : AllocReach img.phySize img.ekernel fps a) (hs : s.buddy = a.buddy)
    (hn : n ≤ 2 ^ 63) (halloc : (allocPages n).run s = .ok va t) (hva : va ≠ 0)
    (hbal : Balanced (vaPfn va) n calls) :
    (∀ done, done <+: calls → Ends (runCalls done) t (fun _ u => BlockKept (vaPfn va) n done u) fun _ _ => False) ↔
      n ≤ 1 ∧ ∀ done, done <+: calls → references done (vaPfn va) < 2 ^ 64 := by
  have hk := img.order_le
  have h20 := img.two_pow_order_le
  obtain ⟨p, b, hpage, hp, ht, hnew⟩ := ((hreach.inv img.fits).2.ends_allocPages hs hn).of_ok halloc hva
  have hp20 : p < 2 ^ 20 := by omega
  have hpfn : vaPfn va = p := by rw [hpage, vaPfn_pfnVa hp20]
  rw [hpfn] at hbal ⊢
  rw [ht]
  have hself : Function.update a.live p (some ⟨max n 1, 1⟩) p = some ⟨max n 1, 1⟩ := Function.update_self ..
  have hlt : ∀ x, InBlock p n x → x < 2 ^ 20 := fun x hx => by
    have := hnew.inBlock_lt (by omega) hself hx
    omega
  have hpos := blockPages_pos hn
  have hfirst : InBlock p n p := ⟨Nat.le_refl p, by omega⟩
  constructor
  · intro hkept
    have hone : n ≤ 1 := by
      by_contra hmore
      have hsize := one_lt_blockPages (by omega) hn
      have hnext : InBlock p n (p + 1) := ⟨Nat.le_succ p, by omega⟩
      -- the second page of the block has no count of its own
      have hzero : (s.withBuddy b).buddy.refCnt (p + 1) = 0 :=
        hnew.uncounted (by omega) hself hnext (Nat.ne_of_gt (Nat.lt_succ_self p))
      have hempty := ends_pure.mp (hkept [] List.nil_prefix)
      have hbad := (ends_getPageRefcnt_at (hlt _ hnext)).mp (hempty.counted (p + 1) hnext)
      rw [hzero] at hbad
      exact absurd hbad Nat.zero_ne_one
    refine ⟨hone, fun done hdone => ?_⟩
    have hfit : Ends (runCalls done) (s.withBuddy b) (fun _ u => CountsFit u) fun _ _ => True :=
      runCalls_countsFit (hnew.countsFit rfl) (fun x hx => hlt x (hbal.get x (hdone.subset hx)))
        fun x hx => hlt x (hbal.put x (hdone.subset hx))
    have hruns := (hkept done hdone).and hfit
    cases hrun : (runCalls done).run (s.withBuddy b) with
    | error e u => exact (hruns.of_error hrun).1.elim
    | ok v u =>
        obtain ⟨hblock, hwords⟩ := hruns.of_ok hrun
        have heq := (ends_getPageRefcnt_at hp20).mp (hblock.counted p hfirst)
        rw [← heq]
        exact hwords p
  · rintro ⟨hone, hfit⟩ done hdone
    have hsize : blockPages n = 1 := by
      obtain rfl | rfl : n = 0 ∨ n = 1 := by omega
      · rfl
      · exact blockPages_one
    have hmax : max n 1 = 1 := by omega
    rw [hmax] at hnew hself
    have hstart : OnePage img p [] (s.withBuddy b) ⟨b, Function.update a.live p (some ⟨1, 1⟩)⟩ := ⟨hnew, rfl, hself⟩
    refine (hstart.run_calls hp20 hsize hbal hfit hdone).mono (fun _ u hu => ?_) fun _ _ hno => hno
    obtain ⟨a', ha'⟩ := hu
    exact ha'.kept hp20 hsize

end Runs

section Small

/-- A memory of four pages, the first of them the kernel's. -/
def fourPages : Image where
  order := 2
  stext := VM_START
  etext := VM_START
  srodata := VM_START
  erodata := VM_START
  sdata := VM_START
  sramdisk := VM_START
  eramdisk := VM_START
  swapperPgDir := VM_START
  dummy := VM_START
  retFromFork := VM_START
  ekernel := VM_START + PGSIZE
  order_le := by decide
  start := by decide
  room := by decide
  ekernel_le := by decide
  swapper_start := by decide
  swapper_end := by decide
  swapper_aligned := by decide

theorem balanced_get_put {p n x : Nat} (hx : InBlock p n x) : Balanced p n [.get x, .put x] where
  get y hy := by
    obtain rfl : y = x := by simpa using hy
    exact hx
  put y hy := by
    obtain rfl : y = x := by simpa using hy
    exact hx
  alloc m hm := by simp at hm
  balanced done hdone y := by
    rcases List.prefix_cons_iff.mp hdone with rfl | ⟨rest, rfl, hrest⟩
    · exact Nat.le_refl 0
    · rcases List.prefix_cons_iff.mp hrest with rfl | ⟨last, rfl, hlast⟩
      · simp
      · obtain rfl := List.prefix_nil.mp hlast
        simp [List.count_cons]

/-- The kernel over an allocator. -/
def kernelOver (b : Buddy) : KState :=
  ⟨fun _ => 0, b, 0, 0, 0, fun _ => 0, 0, 0, fun _ => ⟨0, 0, 0, 0, 0, 0, 0, 0⟩, []⟩

/-- A block of one page in a memory of four keeps its references. -/
theorem block_kept_four_pages :
    ∃ fps a s t, AllocReach fourPages.phySize fourPages.ekernel fps a ∧ s.buddy = a.buddy ∧
      (allocPages 1).run s = .ok (pfnVa 2) t ∧ Balanced 2 1 [.get 2, .put 2] ∧
      ∀ done, done <+: [.get 2, .put 2] → Ends (runCalls done) t (fun _ u => BlockKept 2 1 done u) fun _ _ => False := by
  obtain ⟨b, hb, hres⟩ := buddyInit_spec fourPages.fits
  have hcall : ((buddyInit fourPages.phySize fourPages.ekernel).bind fun x =>
      (buddyAlloc x.1 1).map Prod.fst) = some 2 := by decide
  rw [show buddyInit fourPages.phySize fourPages.ekernel = _ from hb] at hcall
  obtain ⟨⟨p, b₁⟩, he, hp⟩ := Option.map_eq_some_iff.mp hcall
  obtain rfl : p = 2 := hp
  have halloc : (allocPages 1).run (kernelOver b) = .ok (pfnVa 2) ((kernelOver b).withBuddy b₁) :=
    Ends.run_eq ((ends_allocPages he).mpr ⟨rfl, rfl⟩)
  have hreach : AllocReach fourPages.phySize fourPages.ekernel _ _ := .init hb
  have hpfn : vaPfn (pfnVa 2) = 2 := vaPfn_pfnVa (by decide)
  have hbal : Balanced 2 1 [.get 2, .put 2] := balanced_get_put ⟨by decide, by decide⟩
  have hkept := block_kept_iff (s := kernelOver b) (n := 1) hreach rfl (Nat.le_of_ble_eq_true rfl) halloc
    (pfnVa_ne_zero (by decide)) (by rw [hpfn]; exact hbal)
  rw [hpfn] at hkept
  refine ⟨_, _, _, _, hreach, rfl, halloc, hbal, hkept.mpr ⟨Nat.le_refl 1, fun done hdone => ?_⟩⟩
  have hcount := List.count_le_length (a := PageCall.get 2) (l := done)
  have hlen : done.length ≤ 2 := hdone.length_le
  rw [references]
  omega

/-- `get_page` and `put_page` on the second page of a block of two give the block away: the next allocation
returns it again. -/
theorem block_lost_four_pages :
    ∃ fps a s t u w, AllocReach fourPages.phySize fourPages.ekernel fps a ∧ s.buddy = a.buddy ∧
      (allocPages 2).run s = .ok (pfnVa 2) t ∧ Balanced 2 2 [.get 3, .put 3] ∧
      (runCalls [.get 3, .put 3]).run t = .ok () u ∧ (allocPages 2).run u = .ok (pfnVa 2) w ∧
      ¬ BlockKept 2 2 [.get 3, .put 3] u := by
  obtain ⟨b, hb, hres⟩ := buddyInit_spec fourPages.fits
  have hcalls : ((buddyInit fourPages.phySize fourPages.ekernel).bind fun x =>
      (buddyAlloc x.1 2).bind fun y => (buddyAlloc (pageRefDec y.2 3) 2).map fun z => (y.1, y.2.refCnt 3, z.1)) =
      some (2, 0, 2) := by decide
  rw [show buddyInit fourPages.phySize fourPages.ekernel = _ from hb, Option.bind_some] at hcalls
  obtain ⟨⟨p, b₁⟩, he, hcalls⟩ := Option.bind_eq_some_iff.mp hcalls
  obtain ⟨⟨q, b₂⟩, he', hpq⟩ := Option.map_eq_some_iff.mp hcalls
  obtain ⟨rfl, hzero, rfl⟩ : p = 2 ∧ b₁.refCnt 3 = 0 ∧ q = 2 := by simpa using hpq
  let t := (kernelOver b).withBuddy b₁
  let u := t.withBuddy (pageRefDec b₁ 3)
  have halloc : (allocPages 2).run u = .ok (pfnVa 2) (u.withBuddy b₂) :=
    Ends.run_eq ((ends_allocPages he').mpr ⟨rfl, rfl⟩)
  refine ⟨_, ⟨b, fun _ => none⟩, kernelOver b, t, u, u.withBuddy b₂, .init hb, rfl,
    Ends.run_eq ((ends_allocPages he).mpr ⟨rfl, rfl⟩), balanced_get_put ⟨by decide, by decide⟩, ?_, halloc,
    fun hkept => ?_⟩
  · have h3 : 3 < 2 ^ 20 := by decide
    refine Ends.run_eq ?_
    rw [runCalls, ends_bind, ends_get_at h3, KState.withBuddy_buddy, if_pos hzero, runCalls, ends_bind, ends_put_at h3]
    exact ends_pure.mpr ⟨rfl, rfl⟩
  · have happ := (hkept.apart 2 (Nat.le_of_ble_eq_true rfl)).of_ok halloc (pfnVa_ne_zero (by decide)) 2
    rw [vaPfn_pfnVa (by decide)] at happ
    exact happ ⟨by decide, by decide⟩ ⟨by decide, by decide⟩

end Small

end ZjuOs
