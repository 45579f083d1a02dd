import ZjuOs.Access
import ZjuOs.AllocatorRuns

/-! The allocator as the paging code uses it: every block is a single page. -/
namespace ZjuOs
open BuddyTree Exec

/-- The invariant of a run whose live blocks are single pages. -/
def PageInv (k r : Nat) (b : Buddy) : Prop :=
  ∃ live, AllocInv k r ⟨b, live⟩ ∧ ∀ p h, live p = some h → h.pages = 1

section PageInv
variable {k r p : Nat} {b : Buddy}

theorem PageInv.init {b : Buddy} (hb : Reserved k r b) : PageInv k r b :=
  ⟨_, .init hb, fun p h hp => by cases hp⟩

/-- A page without a reference is not covered by any block. -/
theorem uncovered_iff {live : Nat → Option Holding} (hs : AllocInv k r ⟨b, live⟩)
    (hone : ∀ p h, live p = some h → h.pages = 1) :
    FreeRun (liveBlocks live ∪ reservedBlocks k r) ⟨0, p⟩ ↔ b.refCnt p = 0 := by
  have hcnt : b.refCnt p = expectedRefs k r live p := hs.refCnt p
  rw [freeRun_page_iff]
  refine ⟨hs.refCnt_uncovered, ?_⟩
  rw [hcnt, expectedRefs]
  rintro hzero c (⟨q, g, hq, rfl⟩ | hc) hcov
  · have hpos := (hs.holding q g hq).refs_pos
    have horder : (g.block q).order = 0 := by simp [Holding.block, hone q g hq]
    have hpq : p = q := by
      have hfirst := (hs.holding q g hq).first
      rw [Block.covers_iff, hfirst, Block.size, horder] at hcov
      omega
    subst hpq
    rw [hq] at hzero
    simp only at hzero
    omega
  · have hr := reservedBlocks_covers.mp ⟨c, hc, hcov⟩
    cases hl : live p with
    | some g =>
        have := (hs.holding p g hl).above
        omega
    | none =>
        rw [hl] at hzero
        simp only [hr, and_self, if_true] at hzero
        omega

theorem PageInv.alloc (h : PageInv k r b) (hr : 0 < r) (hk : k ≤ 63) :
    (∃ p b', buddyAlloc b 1 = some (p, b') ∧ 0 < p ∧ r ≤ p ∧ p < 2 ^ k ∧ b.refCnt p = 0 ∧
      b'.refCnt = Function.update b.refCnt p 1 ∧ PageInv k r b') ∨
    (buddyAlloc b 1 = some (0, b) ∧ ∀ p, p < 2 ^ k → b.refCnt p ≠ 0) := by
  obtain ⟨live, hs, hone⟩ := h
  rcases hs.alloc_spec hr hk le_rfl Nat.one_le_two_pow with
    ⟨c, b', he, ho, hne, hin, hf, _, _, hs'⟩ | ⟨he, hnone⟩
  · left
    have horder : c.order = 0 := by simpa using ho
    have hfirst : c.first = c.pos := by simp [Block.first, horder]
    have hc : c = ⟨0, c.first⟩ := Block.ext horder hfirst.symm
    have hlt : c.first < 2 ^ k := hin.covers_lt c.covers_first
    have habove := (hs'.holding c.first ⟨1, 1⟩ (Function.update_self ..)).above
    rw [hc] at hf
    refine ⟨c.first, b', he, by omega, habove, hlt, (uncovered_iff hs hone).mp hf, ?_, _, hs', ?_⟩
    · funext q
      have hcnt : b.refCnt q = expectedRefs k r live q := hs.refCnt q
      have hcnt' : b'.refCnt q = expectedRefs k r (Function.update live c.first (some ⟨1, 1⟩)) q :=
        hs'.refCnt q
      rw [hcnt']
      by_cases hq : q = c.first
      · subst hq
        rw [expectedRefs_some, Function.update_self]
      · rw [Function.update_of_ne hq, hcnt, expectedRefs, expectedRefs, Function.update_of_ne hq]
    · refine update_forall hone ?_
      rintro _ ⟨⟩
      rfl
  · right
    refine ⟨he, fun p hp hzero => ?_⟩
    exact hnone ⟨0, p⟩ (by simp) ⟨Nat.zero_le _, by simpa using hp⟩ ((uncovered_iff hs hone).mpr hzero)

/-- A referenced page outside the reserved region is a live block. -/
theorem live_of_ref {live : Nat → Option Holding} (hs : AllocInv k r ⟨b, live⟩) (hp : r ≤ p)
    (href : b.refCnt p ≠ 0) : ∃ h, live p = some h ∧ h.refs = b.refCnt p := by
  have hcnt : b.refCnt p = expectedRefs k r live p := hs.refCnt p
  cases hl : live p with
  | some h => exact ⟨h, rfl, by rw [hcnt, expectedRefs, hl]⟩
  | none =>
      rw [hcnt, expectedRefs, hl] at href
      simp only at href
      rw [if_neg (by omega)] at href
      exact absurd rfl href

theorem PageInv.inc (h : PageInv k r b) (hp : r ≤ p) (href : b.refCnt p ≠ 0)
    (hlt : b.refCnt p + 1 < 2 ^ 64) :
    PageInv k r (pageRefInc b p) ∧ (pageRefInc b p).refCnt = Function.update b.refCnt p (b.refCnt p + 1) := by
  obtain ⟨live, hs, hone⟩ := h
  obtain ⟨g, hg, hrefs⟩ := live_of_ref hs hp href
  refine ⟨⟨_, hs.inc hg (by omega), update_forall hone ?_⟩, ?_⟩
  · rintro _ ⟨⟩
    exact hone p g hg
  · simp only [pageRefInc, Nat.mod_eq_of_lt hlt]

theorem pageRefDec_refCnt (href : b.refCnt p ≠ 0) :
    (pageRefDec b p).refCnt = Function.update b.refCnt p (b.refCnt p - 1) := by
  rcases Nat.lt_or_ge 1 (b.refCnt p) with hmore | hlast
  · rw [pageRefDec_more hmore]
  · have hone : b.refCnt p = 1 := by omega
    rw [pageRefDec_last hone, buddyFree]
    simp [hone]

theorem PageInv.dec (h : PageInv k r b) (hp : r ≤ p) (href : b.refCnt p ≠ 0) :
    PageInv k r (pageRefDec b p) := by
  obtain ⟨live, hs, hone⟩ := h
  obtain ⟨g, hg, -⟩ := live_of_ref hs hp href
  refine ⟨_, hs.dec hg, update_forall hone ?_⟩
  intro g' hg'
  split at hg'
  · cases hg'
  · cases hg'
    exact hone p g hg

end PageInv

section Frames
variable {img : Image} {s t : KState} {f g : Nat}

/-- The reference count of a frame of RAM. -/
def KState.ref (s : KState) (f : Nat) : Nat := s.buddy.refCnt (f - 0x80000)

@[simp] theorem KState.ref_withMem (m : Memory.Mem) : (s.withMem m).ref f = s.ref f := rfl

@[simp] theorem KState.ref_log (e : Event) : (s.log e).ref f = s.ref f := rfl

/-- The first frame behind the kernel image and the allocator's tables. -/
def Image.firstFree (img : Image) : Nat := 0x80000 + reservedPages img.order img.ekernel

theorem Image.fits (img : Image) : Fits img.order img.ekernel := by
  have h1 := img.start
  exact ⟨by omega, img.room⟩

/-- The allocator's invariant holds. -/
def KState.Pages (img : Image) (s : KState) : Prop :=
  PageInv img.order (reservedPages img.order img.ekernel) s.buddy

/-- Frame `f` was free in `s` and has been handed out in `t`. -/
structure Taken (img : Image) (s t : KState) (f : Nat) : Prop where
  ram : img.Ram f
  above : img.firstFree ≤ f
  free : s.ref f = 0
  taken : t.ref f = 1
  others : ∀ g, img.Ram g → g ≠ f → t.ref g = s.ref g
  pages : t.Pages img
  rest : ∃ b, t = s.withBuddy b

theorem allocPage_spec (h : s.Pages img) :
    Ends allocPage s (fun p t => (p = 0 ∧ t = s ∧ ∀ f, img.Ram f → s.ref f ≠ 0) ∨
      ∃ f, p = framePtr f ∧ Taken img s t f) fun _ _ => False := by
  have hk := img.order_le
  simp only [allocPage, allocPages, ends_bind, ends_get]
  rcases h.alloc img.fits.reservedPages_pos (by omega) with
    ⟨p, b, he, hpos, hr, hlt, hzero, hcnt, hb⟩ | ⟨he, hfull⟩
  · rw [he]
    simp only [ends_bind, ends_modify, ends_pure]
    have h20 := img.two_pow_order_le
    have hram : img.Ram (p + 0x80000) := ⟨by omega, by omega⟩
    have hsub : p + 0x80000 - 0x80000 = p := by omega
    right
    refine ⟨p + 0x80000, ?_, hram, by simp only [Image.firstFree]; omega, ?_, ?_, ?_, hb, _, rfl⟩
    · have hptr := PA2VA_frame hram (o := 0) (by omega)
      rw [if_neg (by omega), PFN2PHYS_eq (by omega)]
      simpa using hptr
    · simpa only [KState.ref, hsub] using hzero
    · simp only [KState.ref, hsub, KState.withBuddy_buddy, hcnt, Function.update_self]
    · intro g hg hne
      simp only [KState.ref, KState.withBuddy_buddy, hcnt]
      refine Function.update_of_ne ?_ _ _
      have := hg.1
      omega
  · rw [he]
    simp only [ends_bind, ends_modify, ends_pure]
    left
    refine ⟨rfl, rfl, fun f hf => hfull _ ?_⟩
    have := hf.2
    have := hf.1
    omega

/-- The counts of the other frames and the allocator's invariant after one count has changed. -/
structure Recounted (img : Image) (s t : KState) (f n : Nat) : Prop where
  counted : t.ref f = n
  others : ∀ g, img.Ram g → g ≠ f → t.ref g = s.ref g
  pages : t.Pages img
  rest : ∃ b, t = s.withBuddy b

theorem update_refCnt {b b' : Buddy} {n : Nat} (hf : img.Ram f)
    (h : b'.refCnt = Function.update b.refCnt (f - 0x80000) n) (hg : img.Ram g) (hne : g ≠ f) :
    b'.refCnt (g - 0x80000) = b.refCnt (g - 0x80000) := by
  rw [h]
  refine Function.update_of_ne ?_ _ _
  have := hf.1
  have := hg.1
  omega

theorem pfn_framePtr (hf : img.Ram f) : PHYS2PFN (VA2PA (framePtr f)) = f - 0x80000 := by
  have hpa := VA2PA_framePtr hf (o := 0) (by omega)
  rw [Nat.add_zero] at hpa
  rw [hpa]
  exact PHYS2PFN_frame hf (by omega)

theorem getPage_spec (h : s.Pages img) (hf : img.Ram f) (hr : img.firstFree ≤ f) (href : s.ref f ≠ 0)
    (hlt : s.ref f + 1 < 2 ^ 64) :
    Ends (getPage (framePtr f)) s (fun _ t => Recounted img s t f (s.ref f + 1)) fun _ _ => False := by
  have hinc := h.inc (p := f - 0x80000) (by simp only [Image.firstFree] at hr; omega) href hlt
  simp only [getPage, pfn_framePtr hf, ends_bind, ends_get]
  rw [if_neg (show s.buddy.refCnt (f - 0x80000) ≠ 0 from href)]
  simp only [ends_bind, ends_modify, ends_pure]
  refine ⟨?_, fun g hg hne => update_refCnt hf hinc.2 hg hne, hinc.1, _, rfl⟩
  simp only [KState.ref, KState.withBuddy_buddy, hinc.2, Function.update_self]

theorem putPage_spec (h : s.Pages img) (hf : img.Ram f) (hr : img.firstFree ≤ f) (href : s.ref f ≠ 0) :
    Ends (putPage (framePtr f)) s (fun _ t => Recounted img s t f (s.ref f - 1)) fun _ _ => False := by
  have hdec := h.dec (p := f - 0x80000) (by simp only [Image.firstFree] at hr; omega) href
  have hcnt := pageRefDec_refCnt (b := s.buddy) (p := f - 0x80000) href
  simp only [putPage, pfn_framePtr hf, ends_modify]
  refine ⟨?_, fun g hg hne => update_refCnt hf hcnt hg hne, hdec, _, rfl⟩
  simp only [KState.ref, KState.withBuddy_buddy, hcnt, Function.update_self]

theorem ends_getPageRefcnt {Q : Nat → KState → Prop} {E : Halt → KState → Prop} (hf : img.Ram f) :
    Ends (getPageRefcnt (framePtr f)) s Q E ↔ Q (s.ref f) s := by
  simp only [getPageRefcnt, ends_bind, ends_get, ends_pure, pfn_framePtr hf, KState.ref]

end Frames

end ZjuOs
