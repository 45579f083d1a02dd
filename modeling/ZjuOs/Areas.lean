import Mathlib.Data.Finset.Card
import ZjuOs.Copies

/-! The lists of memory areas: their nodes in order, and what `find_vma` selects from them. -/
namespace ZjuOs
open Memory Exec

/-- The nodes of a null-terminated list from `p`, in order. -/
def Chain (next : Nat → Nat) : Nat → List Nat → Prop
  | p, [] => p = 0
  | p, q :: l => p = q ∧ p ≠ 0 ∧ Chain next (next p) l

/-- `addr` lies between the two ends of the area, both included. -/
def VmArea.touches (area : VmArea) (addr : Nat) : Bool := decide (area.vm_start ≤ addr ∧ addr ≤ area.vm_end)

section Chain
variable {next : Nat → Nat} {vma : Nat → VmArea} {p addr fuel : Nat} {l : List Nat}

theorem Chain.ne_zero (h : Chain next p l) : ∀ q ∈ l, q ≠ 0 := by
  induction l generalizing p with
  | nil => exact fun q hq => by cases hq
  | cons r l ih =>
      obtain ⟨rfl, hne, hrest⟩ := h
      intro q hq
      rcases List.mem_cons.mp hq with rfl | hq
      · exact hne
      · exact ih hrest q hq

/-- `find_vma` returns the first node whose closed interval holds the address. -/
theorem findFrom_eq (h : Chain (fun q => (vma q).vm_next) p l) (hfuel : l.length < fuel) :
    findFrom vma addr fuel p = some ((l.find? fun q => (vma q).touches addr).getD 0) := by
  induction l generalizing p fuel with
  | nil =>
      obtain ⟨fuel, rfl⟩ := Nat.exists_eq_succ_of_ne_zero (Nat.ne_of_gt hfuel)
      have hzero : p = 0 := h
      rw [findFrom, if_pos hzero]
      rfl
  | cons q l ih =>
      obtain ⟨rfl, hne, hrest⟩ := h
      obtain ⟨fuel, rfl⟩ := Nat.exists_eq_succ_of_ne_zero (Nat.ne_of_gt (Nat.zero_lt_of_lt hfuel))
      rw [List.length_cons] at hfuel
      rw [findFrom, if_neg hne, List.find?_cons]
      by_cases ht : (vma p).touches addr = true
      · have hcond : (decide (addr ≥ (vma p).vm_start) && decide (addr ≤ (vma p).vm_end)) = true := by
          simpa [VmArea.touches] using ht
        rw [if_pos hcond, ht]
        rfl
      · have hcond : ¬ (decide (addr ≥ (vma p).vm_start) && decide (addr ≤ (vma p).vm_end)) = true := by
          simpa [VmArea.touches] using ht
        rw [if_neg hcond, Bool.not_eq_true _ |>.mp ht]
        exact ih hrest (by omega)

end Chain

/-- A list of areas: its nodes are pages of RAM in use. -/
structure NodeList (img : Image) (s : KState) (head : Nat) (l : List Nat) : Prop where
  chain : Chain (fun p => (s.vma p).vm_next) head l
  nodup : l.Nodup
  node : ∀ p ∈ l, ∃ f, p = framePtr f ∧ img.Ram f ∧ s.ref f ≠ 0

/-- The areas end in the user half. -/
structure AreaList (img : Image) (s : KState) (head : Nat) (l : List Nat) : Prop extends
    NodeList img s head l where
  below : ∀ p ∈ l, (s.vma p).vm_end ≤ USER_END

/-- The head of the list of task `i`. -/
def mmapOf (lay : Layout) (s : KState) (i : Nat) : Nat := ld 8 s.mem (lay.page i * 4096 + TASK_MM)

section Lists
variable {img : Image} {lay : Layout} {s t : KState} {vma : Nat → VmArea} {head i addr : Nat} {l : List Nat}

theorem length_le_of_ram (hn : l.Nodup) (h : ∀ p ∈ l, ∃ f, img.Ram f ∧ p = framePtr f) :
    l.length ≤ 0x180000 := by
  have hsub : l.toFinset ⊆ (Finset.range 0x180000).image framePtr := by
    intro p hp
    obtain ⟨f, hf, rfl⟩ := h p (List.mem_toFinset.mp hp)
    exact Finset.mem_image_of_mem _ (Finset.mem_range.mpr hf.bounds.2)
  have hcard := (Finset.card_le_card hsub).trans Finset.card_image_le
  rwa [List.toFinset_card_of_nodup hn, Finset.card_range] at hcard

theorem NodeList.length_le (h : NodeList img s head l) : l.length ≤ 0x180000 :=
  length_le_of_ram h.nodup fun p hp => by
    obtain ⟨f, he, hram, -⟩ := h.node p hp
    exact ⟨f, hram, he⟩

/-- A list survives what keeps the areas and the pages of its nodes. -/
theorem NodeList.mono (h : NodeList img s head l) (hvma : t.vma = s.vma)
    (hnode : ∀ f, img.Ram f → s.ref f ≠ 0 → t.ref f ≠ 0) : NodeList img t head l where
  chain := by rw [hvma]; exact h.chain
  nodup := h.nodup
  node := fun p hp => by
    obtain ⟨f, he, hram, href⟩ := h.node p hp
    exact ⟨f, he, hram, hnode f hram href⟩

theorem AreaList.mono (h : AreaList img s head l) (hvma : t.vma = s.vma)
    (hnode : ∀ f, img.Ram f → s.ref f ≠ 0 → t.ref f ≠ 0) : AreaList img t head l where
  toNodeList := h.toNodeList.mono hvma hnode
  below := by rw [hvma]; exact h.below

/-- The area that `find_vma` selects for an address. -/
def selected (vma : Nat → VmArea) (l : List Nat) (addr : Nat) : Option Nat :=
  l.find? fun q => (vma q).touches addr

theorem selected_some {p : Nat} (h : selected vma l addr = some p) :
    p ∈ l ∧ (vma p).vm_start ≤ addr ∧ addr ≤ (vma p).vm_end := by
  have ht := List.find?_some h
  exact ⟨List.mem_of_find?_eq_some h, of_decide_eq_true ht⟩

theorem AreaList.userVa (h : AreaList img s head l) {p : Nat} (hp : selected s.vma l addr = some p) :
    UserVa addr := by
  obtain ⟨hmem, -, hle⟩ := selected_some hp
  have hend := h.below p hmem
  rw [USER_END] at hend
  rw [UserVa, VPN_eq]
  omega

/-- `find_vma` in the list of the running task. -/
theorem ends_findVma {Q : Nat → KState → Prop} {E : Halt → KState → Prop} (h : Paging img lay s)
    (hr : Running lay s i) (hl : AreaList img s (mmapOf lay s i) l) :
    Ends (findVma img (s.current + TASK_MM) addr) s Q E ↔ Q ((selected s.vma l addr).getD 0) s := by
  have ok := h.task i hr.pos hr.lt hr.some
  have hram := (h.held _ (by rw [ok.page]; exact Role.noConfusion)).1
  have hlen := hl.length_le
  rw [findVma, hr.current, ok.ptr, ends_bind, ends_loadWord hram (by decide), ends_bind, ends_get]
  have hfind : findFrom s.vma addr (2 ^ 64) (ld 8 s.mem (lay.page i * 4096 + TASK_MM)) =
      some ((selected s.vma l addr).getD 0) := findFrom_eq hl.chain (by omega)
  rw [hfind]
  exact ends_pure

end Lists

end ZjuOs
