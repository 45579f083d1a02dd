import Mathlib.Data.Finset.Union
import ZjuOs.PagingSteps

/-!
`create_mapping` on any page table: which tables it adds, and how many frames that takes. Nothing here depends on
which half of the address space is mapped.
-/
namespace ZjuOs
open Memory Exec Radix

section Counting
variable {img : Image} {s t : KState} {g f p : Nat}

theorem KState.Pages.size (h : s.Pages img) : s.buddy.size = 2 ^ img.order := by
  obtain ⟨_, hs, -⟩ := h
  exact hs.size

/-- Every page of the allocator is a frame of RAM. -/
theorem refCnt_eq (s : KState) (p : Nat) : s.buddy.refCnt p = s.ref (p + 0x80000) := by
  rw [KState.ref, Nat.add_sub_cancel]

theorem ram_of_page (hp : p < 2 ^ img.order) : img.Ram (p + 0x80000) := ⟨by omega, by omega⟩

/-- The frames of the kernel image and of the allocator's tables are in use. -/
theorem KState.Pages.reserved (h : s.Pages img) (hf : img.Ram f) (hlow : f < img.firstFree) : s.ref f ≠ 0 := by
  obtain ⟨live, hs, -⟩ := h
  have hcnt := hs.refCnt (f - 0x80000)
  have hram := hf.2
  rw [Image.firstFree] at hlow
  rw [KState.ref, hcnt, expectedRefs]
  have hbelow := hf.1
  split
  · next hold hl => exact Nat.pos_iff_ne_zero.mp (hs.holding _ hold hl).refs_pos
  · rw [if_pos ⟨by omega, by omega⟩]
    exact Nat.one_ne_zero

theorem inUse_succ (hs : s.Pages img) (ht : t.Pages img) (hram : img.Ram g) (hfree : s.ref g = 0) (hone : t.ref g = 1)
    (hothers : ∀ f, img.Ram f → f ≠ g → t.ref f = s.ref f) : t.buddy.inUse = s.buddy.inUse + 1 := by
  have hset : (Finset.range (2 ^ img.order)).filter (fun p => t.buddy.refCnt p ≠ 0) =
      insert (g - 0x80000) ((Finset.range (2 ^ img.order)).filter fun p => s.buddy.refCnt p ≠ 0) := by
    ext p
    rw [Finset.mem_insert, Finset.mem_filter, Finset.mem_filter, Finset.mem_range, refCnt_eq, refCnt_eq]
    by_cases hp : p = g - 0x80000
    · have hg : p + 0x80000 = g := by
        have := hram.1
        omega
      refine iff_of_true ⟨?_, ?_⟩ (.inl hp)
      · have := hram.2
        omega
      · rw [hg, hone]
        exact Nat.one_ne_zero
    · refine ⟨fun ⟨hlt, hne⟩ => .inr ⟨hlt, ?_⟩, fun h => ⟨(h.resolve_left hp).1, ?_⟩⟩
      · rwa [← hothers _ (ram_of_page hlt) (by omega)]
      · rw [hothers _ (ram_of_page (h.resolve_left hp).1) (by omega)]
        exact (h.resolve_left hp).2
  have hnot : g - 0x80000 ∉ (Finset.range (2 ^ img.order)).filter fun p => s.buddy.refCnt p ≠ 0 := fun hmem => by
    have hne := (Finset.mem_filter.mp hmem).2
    exact hne hfree
  rw [Buddy.inUse, Buddy.inUse, ht.size, hs.size, hset, Finset.card_insert_of_notMem hnot]

theorem Taken.inUse (hs : s.Pages img) (ht : Taken img s t g) : t.buddy.inUse = s.buddy.inUse + 1 :=
  inUse_succ hs ht.pages ht.ram ht.free ht.taken ht.others

/-- A count that stays positive changes nothing in what is in use. -/
theorem Recounted.inUse {n : Nat} (hs : s.Pages img) (ht : Recounted img s t f n) (hf : s.ref f ≠ 0) (hn : n ≠ 0) :
    t.buddy.inUse = s.buddy.inUse := by
  rw [Buddy.inUse, Buddy.inUse, ht.pages.size, hs.size]
  refine congrArg Finset.card (Finset.filter_congr fun p hp => ?_)
  rw [refCnt_eq, refCnt_eq]
  by_cases hpf : p + 0x80000 = f
  · rw [hpf, ht.counted]
    exact iff_of_true hn hf
  · rw [ht.others _ (ram_of_page (Finset.mem_range.mp hp)) hpf]

theorem OutOfPages.inUse (h : s.Pages img) (hfull : OutOfPages img s) : s.buddy.inUse = 2 ^ img.order := by
  have hall : (Finset.range (2 ^ img.order)).filter (fun p => s.buddy.refCnt p ≠ 0) = Finset.range (2 ^ img.order) := by
    refine Finset.filter_true_of_mem fun p hp => ?_
    rw [refCnt_eq]
    exact hfull _ (ram_of_page (Finset.mem_range.mp hp))
  rw [Buddy.inUse, h.size, hall, Finset.card_range]

end Counting

/-- The ways to the two inner tables of a page. -/
def ways (va : Nat) : Finset (List (Fin 512)) := {[vpn va 2], [vpn va 2, vpn va 1]}

/-- The first addresses of the pages of `n` rounds of `create_mapping`. -/
def pageSeq : Nat → Nat → List Nat
  | 0, _ => []
  | n + 1, va => va :: pageSeq n ((va + PGSIZE) % 2 ^ 64)

def waysTo (vas : List Nat) : Finset (List (Fin 512)) := vas.foldr (fun va qs => ways va ∪ qs) ∅

theorem mem_waysTo {vas : List Nat} {q : List (Fin 512)} : q ∈ waysTo vas ↔ ∃ va ∈ vas, q ∈ ways va := by
  induction vas with
  | nil => simp [waysTo]
  | cons va vas ih => rw [waysTo, List.foldr_cons, ← waysTo, Finset.mem_union, ih, List.exists_mem_cons_iff]

theorem waysTo_concat (vas : List Nat) (va : Nat) : waysTo (vas ++ [va]) = waysTo vas ∪ ways va := by
  ext q
  rw [Finset.mem_union, mem_waysTo, mem_waysTo]
  simp only [List.mem_append, List.mem_singleton, or_and_right, exists_or, exists_eq_left]

theorem waysTo_subset {vas vas' : List Nat} (h : vas ⊆ vas') : waysTo vas ⊆ waysTo vas' := fun q hq => by
  obtain ⟨va, hva, hq⟩ := mem_waysTo.mp hq
  exact mem_waysTo.mpr ⟨va, h hva, hq⟩

/-- The ways of `qs` that end nowhere. -/
def absent (m : Mem) (r : Nat) (qs : Finset (List (Fin 512))) : Finset (List (Fin 512)) :=
  qs.filter fun q => (descend pteFormat (tables m) r q).isNone

/-- A way to an inner table below a root. -/
def Way (dom : List (Fin 512) → Fin 512 → Prop) (q : List (Fin 512)) : Prop := q.length ≤ 2 ∧ Allowed dom [] q

def SameLeaves (dom : List (Fin 512) → Fin 512 → Prop) (r : Nat) (m m' : Mem) : Prop :=
  ∀ va, Allowed dom [] (path va) → leafPte m' r va = leafPte m r va

/-- The leaf entries after `n` rounds of `create_mapping` over the leaf entries `leaf`. -/
def overlay (perm : Nat) : Nat → Nat → Nat → (Nat → Option Nat) → Nat → Option Nat
  | 0, _, _, leaf => leaf
  | n + 1, va, pa, leaf => overlay perm n ((va + PGSIZE) % 2 ^ 64) ((pa + PGSIZE) % 2 ^ 64) fun x =>
      if x / 4096 % 2 ^ 27 = va / 4096 % 2 ^ 27 then some (mkPte pa perm) else leaf x

theorem overlay_congr {perm n va pa x : Nat} {leaf leaf' : Nat → Option Nat} (h : leaf x = leaf' x) :
    overlay perm n va pa leaf x = overlay perm n va pa leaf' x := by
  induction n generalizing va pa leaf leaf' with
  | zero => exact h
  | succ n ih =>
      rw [overlay, overlay]
      exact ih (by rw [h])

/-- From `m` to `m'` the ways `qs` below the root `r` have been made, and no others. -/
structure WaysMade (dom : List (Fin 512) → Fin 512 → Prop) (r : Nat) (m m' : Mem) (qs : Finset (List (Fin 512))) : Prop where
  keep : ∀ q f, Way dom q → descend pteFormat (tables m) r q = some f → descend pteFormat (tables m') r q = some f
  made : ∀ q ∈ qs, descend pteFormat (tables m') r q ≠ none
  only : ∀ q, Way dom q → q ∉ qs → descend pteFormat (tables m) r q = none → descend pteFormat (tables m') r q = none

section WaysMade
variable {dom : List (Fin 512) → Fin 512 → Prop} {r : Nat} {m m' m'' : Mem} {qs qs' : Finset (List (Fin 512))}

theorem mem_absent {q : List (Fin 512)} : q ∈ absent m r qs ↔ q ∈ qs ∧ descend pteFormat (tables m) r q = none := by
  rw [absent, Finset.mem_filter, Option.isNone_iff_eq_none]

@[simp] theorem absent_empty : absent m r ∅ = ∅ := rfl

theorem WaysMade.refl : WaysMade dom r m m ∅ :=
  ⟨fun _ _ _ hd => hd, fun q hq => absurd hq (Finset.notMem_empty q), fun _ _ _ hd => hd⟩

theorem WaysMade.trans (hqs : ∀ q ∈ qs, Way dom q) (h : WaysMade dom r m m' qs) (h' : WaysMade dom r m' m'' qs') :
    WaysMade dom r m m'' (qs ∪ qs') where
  keep := fun q f hq hd => h'.keep q f hq (h.keep q f hq hd)
  made := fun q hq => by
    rcases Finset.mem_union.mp hq with hq | hq
    · obtain ⟨f, hf⟩ := Option.ne_none_iff_exists'.mp (h.made q hq)
      rw [h'.keep q f (hqs q hq) hf]
      exact Option.some_ne_none f
    · exact h'.made q hq
  only := fun q hway hq hd => by
    rw [Finset.mem_union, not_or] at hq
    exact h'.only q hway hq.2 (h.only q hway hq.1 hd)

/-- What is absent of `qs` and `qs'` is absent of `qs`, or is absent of `qs'` when `qs` has been made. -/
theorem WaysMade.card_absent (hqs' : ∀ q ∈ qs', Way dom q) (h : WaysMade dom r m m' qs) :
    (absent m r (qs ∪ qs')).card = (absent m r qs).card + (absent m' r qs').card := by
  have hset : absent m r (qs ∪ qs') = absent m r qs ∪ absent m' r qs' := by
    ext q
    rw [Finset.mem_union, mem_absent, mem_absent, mem_absent, Finset.mem_union]
    constructor
    · rintro ⟨hq, hd⟩
      by_cases hin : q ∈ qs
      · exact .inl ⟨hin, hd⟩
      · have hq' := hq.resolve_left hin
        exact .inr ⟨hq', h.only q (hqs' q hq') hin hd⟩
    · rintro (⟨hq, hd⟩ | ⟨hq, hd⟩)
      · exact ⟨.inl hq, hd⟩
      · refine ⟨.inr hq, ?_⟩
        cases hs : descend pteFormat (tables m) r q with
        | none => rfl
        | some f =>
            rw [h.keep q f (hqs' q hq) hs] at hd
            cases hd
  have hdisj : Disjoint (absent m r qs) (absent m' r qs') := by
    refine Finset.disjoint_left.mpr fun q hq hq' => ?_
    exact h.made q (mem_absent.mp hq).1 (mem_absent.mp hq').2
  rw [hset, Finset.card_union_of_disjoint hdisj]

end WaysMade

/-- The tables after the ways `qs` below the root `r` have been made. -/
structure Extended (img : Image) (dom : List (Fin 512) → Fin 512 → Prop) (r : Nat)
    (own own' : Nat → Option (Nat × List (Fin 512))) (s t : KState) (qs : Finset (List (Fin 512))) : Prop where
  tree : TableTree img dom own' t
  keep : ∀ f x, own f = some x → own' f = some x
  added : ∀ f, own f = none → own' f ≠ none → s.ref f = 0 ∧ img.firstFree ≤ f ∧ ∃ q, q ≠ [] ∧ own' f = some (r, q)
  descend : ∀ x a p q f, own x = some (a, p) → p.length + q.length ≤ 2 → Allowed dom p q →
    Radix.descend pteFormat (tables s.mem) x q = some f → Radix.descend pteFormat (tables t.mem) x q = some f
  made : ∀ q ∈ qs, Radix.descend pteFormat (tables t.mem) r q ≠ none
  only : ∀ q, Way dom q → q ∉ qs → Radix.descend pteFormat (tables s.mem) r q = none →
    Radix.descend pteFormat (tables t.mem) r q = none
  inUse : t.buddy.inUse = s.buddy.inUse + (absent s.mem r qs).card
  pointer : Pointers dom own s.mem → Pointers dom own' t.mem
  ref : ∀ f, img.Ram f → s.ref f ≠ 0 → t.ref f = s.ref f
  frame : ∀ f, own' f = none → SameFrame t.mem s.mem f
  tasks : SameTasks s t
  sparing : Sparing img s t

section Extended
variable {img : Image} {dom : List (Fin 512) → Fin 512 → Prop} {own own' own'' : Nat → Option (Nat × List (Fin 512))}
  {s t u : KState} {r : Nat} {qs qs' : Finset (List (Fin 512))}

theorem Extended.refl (h : TableTree img dom own s) : Extended img dom r own own s s ∅ where
  tree := h
  keep := fun _ _ hf => hf
  added := fun _ h0 h1 => absurd h0 h1
  descend := fun _ _ _ _ _ _ _ _ hd => hd
  made := fun q hq => absurd hq (Finset.notMem_empty q)
  only := fun _ _ _ hd => hd
  inUse := rfl
  pointer := id
  ref := fun _ _ _ => rfl
  frame := fun _ _ => .refl _ _
  tasks := .refl s
  sparing := .refl s

theorem Extended.waysMade (hr : own r = some (r, [])) (h : Extended img dom r own own' s t qs) : WaysMade dom r s.mem t.mem qs :=
  ⟨fun q f hq hd => h.descend r r [] q f hr (by simpa using hq.1) hq.2 hd, h.made, h.only⟩

theorem Extended.trans (hr : own r = some (r, [])) (hqs : ∀ q ∈ qs, Way dom q) (hqs' : ∀ q ∈ qs', Way dom q)
    (h : Extended img dom r own own' s t qs) (h' : Extended img dom r own' own'' t u qs') :
    Extended img dom r own own'' s u (qs ∪ qs') where
  tree := h'.tree
  keep := fun f x hf => h'.keep f x (h.keep f x hf)
  added := fun f h0 h2 => by
    by_cases h1 : own' f = none
    · obtain ⟨hz, habove, q, hq, hown⟩ := h'.added f h1 h2
      refine ⟨?_, habove, q, hq, hown⟩
      by_contra hne
      have hram := (h'.tree.held f _ hown).1
      exact hne ((h.ref f hram hne).symm.trans hz)
    · obtain ⟨hz, habove, q, hq, hown⟩ := h.added f h0 h1
      exact ⟨hz, habove, q, hq, h'.keep f _ hown⟩
  descend := fun x a p q f hx hlen hq hd => h'.descend x a p q f (h.keep x _ hx) hlen hq (h.descend x a p q f hx hlen hq hd)
  made := ((h.waysMade hr).trans hqs (h'.waysMade (h.keep r _ hr))).made
  only := ((h.waysMade hr).trans hqs (h'.waysMade (h.keep r _ hr))).only
  inUse := by rw [h'.inUse, h.inUse, (h.waysMade hr).card_absent hqs', Nat.add_assoc]
  pointer := fun hp => h'.pointer (h.pointer hp)
  ref := fun f hf hne => by
    have h1 := h.ref f hf hne
    rw [h'.ref f hf (by rw [h1]; exact hne), h1]
  frame := fun f hf => by
    have h1 : own' f = none := by
      by_contra hne
      obtain ⟨x, hx⟩ := Option.ne_none_iff_exists'.mp hne
      rw [h'.keep f x hx] at hf
      cases hf
    exact (h'.frame f hf).trans (h.frame f h1)
  tasks := h.tasks.trans h'.tasks
  sparing := h.sparing.trans h'.sparing

end Extended

section Steps
variable {img : Image} {dom : List (Fin 512) → Fin 512 → Prop} {own : Nat → Option (Nat × List (Fin 512))}
  {s t : KState} {r a l x g pte va pa perm : Nat} {b : List (Fin 512)} {k : Fin 512} {fresh : Prop}

/-- A leaf entry is stored. -/
theorem TableTree.edit_leaf (h : TableTree img dom own s) (hr : own r = some (r, [])) (hl : own l = some (a, b))
    (hb : b.length = 2) (hlt : pte < 2 ^ 64) :
    Extended img dom r own own s (s.edit l k pte) ∅ where
  tree :=
    { pages := h.pages
      held := h.held
      owned := by
        rw [tables_edit hlt]
        exact h.owned.set_leaf hl hb }
  keep := fun _ _ hf => hf
  added := fun _ h0 h1 => absurd h0 h1
  descend := fun y a' p q f hy hlen hq hd => by
    rw [tables_edit hlt, h.owned.descend_set_leaf hl hb hy hlen hq]
    exact hd
  made := fun q hq => absurd hq (Finset.notMem_empty q)
  only := fun q hway _ hd => by
    rw [tables_edit hlt, h.owned.descend_set_leaf hl hb hr (by simpa using hway.1) hway.2]
    exact hd
  inUse := rfl
  pointer := fun hp f y p i hf hlen hd hodd => by
    have hfl : f ≠ l := by
      rintro rfl
      rw [hl] at hf
      cases hf
      omega
    rw [tables_edit hlt, set_of_ne_table hfl] at hodd ⊢
    exact hp f y p i hf hlen hd hodd
  ref := fun _ _ _ => rfl
  frame := fun f hf => sameFrame_edit (by rintro rfl; rw [hl] at hf; cases hf)
  tasks := ⟨rfl, rfl, rfl, rfl, rfl, rfl⟩
  sparing := .edit k.isLt (h.held l _ hl).2

/-- A frame that held no valid entry becomes a table. -/
theorem TableTree.add_table (h : TableTree img dom own s) (hr : own r = some (r, [])) (hx : own x = some (r, b))
    (hb : b.length < 2) (hd : Radix.descend pteFormat (tables s.mem) r b = some x) (heven : tables s.mem x k % 2 = 0)
    (ht : Taken img s t g) (hclean : ∀ j, tables s.mem g j % 2 = 0) :
    Extended img dom r own (Function.update own g (some (r, b ++ [k]))) s (t.addTable x k g) {b ++ [k]} ∧
      Radix.descend pteFormat (tables (t.addTable x k g).mem) r (b ++ [k]) = some g ∧
      SameLeaves dom r s.mem (t.addTable x k g).mem := by
  have hfresh : own g = none := by
    cases hg : own g with
    | none => rfl
    | some y => exact absurd ht.free (h.held g y hg).2
  have hext : Extends pteFormat (tables s.mem) own x k (2 ^ 10 * g + 1) g :=
    { invalid := pteFormat_invalid.mpr heven
      fresh := hfresh
      empty := fun i => pteFormat_invalid.mpr (hclean i)
      valid := pteFormat_valid.mpr (by omega)
      target := pteFrame_mk (by omega) }
  have hkeep : ∀ f y, own f = some y → Function.update own g (some (r, b ++ [k])) f = some y := fun f y hf => by
    rw [Function.update_of_ne, hf]
    rintro rfl
    rw [hfresh] at hf
    cases hf
  have hstay : ∀ y q f, Radix.descend pteFormat (tables s.mem) y q = some f →
      Radix.descend pteFormat (tables (t.addTable x k g).mem) y q = some f := fun y q f hy => by
    rw [ht.tables_addTable]
    exact descend_extend (pteFormat_invalid.mpr heven) hy
  have hnext : Radix.descend pteFormat (tables (t.addTable x k g).mem) r (b ++ [k]) = some g := by
    rw [descend_append, hstay r b x hd, Option.bind_some, Radix.descend, ht.tables_addTable, set_self,
      if_pos (pteFormat_valid.mpr (by omega)), pteFormat_target, pteFrame_mk (by omega)]
    rfl
  have hnone : Radix.descend pteFormat (tables s.mem) r (b ++ [k]) = none := by
    rw [descend_append, hd, Option.bind_some, Radix.descend, if_neg]
    rw [pteFormat_valid]
    omega
  have hxheld := h.held x _ hx
  have hleaves : SameLeaves dom r s.mem (t.addTable x k g).mem := fun va hva => by
    rw [leafPte, leafPte, ht.tables_addTable]
    exact h.owned.lookup_extend hx hb hext hr rfl hva
  refine ⟨?_, hnext, hleaves⟩
  constructor
  case tree =>
    refine ⟨ht.pages, fun f y hf => ?_, ?_⟩
    · by_cases hfg : f = g
      · rw [hfg]
        exact ⟨ht.ram, by change t.ref g ≠ 0; rw [ht.taken]; exact Nat.one_ne_zero⟩
      · rw [Function.update_of_ne hfg] at hf
        obtain ⟨hram, href⟩ := h.held f y hf
        exact ⟨hram, by change t.ref f ≠ 0; rw [ht.ref hram href]; exact href⟩
    · rw [ht.tables_addTable]
      exact h.owned.extend hx hext
  case keep => exact hkeep
  case added =>
    intro f h0 h1
    by_cases hfg : f = g
    · subst hfg
      exact ⟨ht.free, ht.above, b ++ [k], by simp, Function.update_self ..⟩
    · rw [Function.update_of_ne hfg] at h1
      exact absurd h0 h1
  case descend => exact fun y a p q f _ _ _ hy => hstay y q f hy
  case made =>
    intro q hq
    rw [Finset.mem_singleton.mp hq, hnext]
    exact Option.some_ne_none g
  case only =>
    intro q hq hne hnq
    rw [ht.tables_addTable]
    refine h.owned.descend_extend_none hx hext hr (by simpa using hq.1) hq.2 ?_ hnq
    rintro ⟨-, he⟩
    exact hne (Finset.mem_singleton.mpr he)
  case inUse =>
    have hset : absent s.mem r {b ++ [k]} = {b ++ [k]} := by
      refine Finset.filter_true_of_mem fun q hq => ?_
      rw [Finset.mem_singleton.mp hq, hnone]
      rfl
    rw [hset, Finset.card_singleton]
    change t.buddy.inUse = _
    exact ht.inUse h.pages
  case pointer =>
    intro hp f y p i hf hlen hdom hodd
    rw [ht.tables_addTable] at hodd ⊢
    by_cases hslot : f = x ∧ i = k
    · rw [hslot.1, hslot.2, set_self]
      exact pteFlags_mk (by decide)
    · have hne : f ≠ x ∨ i ≠ k := not_and_or.mp hslot
      rw [set_of_ne hne] at hodd ⊢
      by_cases hfg : f = g
      · rw [hfg, hclean] at hodd
        cases hodd
      · rw [Function.update_of_ne hfg] at hf
        exact hp f y p i hf hlen hdom hodd
  case ref => exact fun f hf href => ht.ref hf href
  case frame =>
    intro f hf
    refine ht.sameFrame_addTable ?_
    rintro rfl
    rw [hkeep f _ hx] at hf
    cases hf
  case tasks => exact ht.tasks_addTable
  case sparing => exact ht.sparing_addTable hxheld.1 hxheld.2

/-- One level of the walk. -/
theorem TableTree.nextTable (h : TableTree img dom own s) (hfresh : fresh → Fresh img s) (hr : own r = some (r, []))
    (hway : Way dom (b ++ [k])) (hx : own x = some (r, b)) (hd : Radix.descend pteFormat (tables s.mem) r b = some x) :
    Spec fresh (nextTable img (framePtr x) k) s
      (fun p t => (p = 0 ∧ t.buddy.inUse = 2 ^ img.order ∧ t.buddy = s.buddy ∧
          Radix.descend pteFormat (tables s.mem) r (b ++ [k]) = none) ∨
        ∃ own' y, p = framePtr y ∧ Extended img dom r own own' s t {b ++ [k]} ∧
          Radix.descend pteFormat (tables t.mem) r (b ++ [k]) = some y ∧ SameLeaves dom r s.mem t.mem)
      fun _ _ => False := by
  have hnone : tables s.mem x k % 2 = 0 → Radix.descend pteFormat (tables s.mem) r (b ++ [k]) = none := fun heven => by
    rw [descend_append, hd, Option.bind_some, Radix.descend, if_neg]
    rw [pteFormat_valid]
    omega
  refine Ends.mono (nextTable_spec h.pages (h.held x _ hx).1) ?_ fun _ _ hno => hno.elim
  intro p t hp hclean
  cases hp with
  | present hodd he ht =>
      right
      subst ht
      have hv := pteFormat_valid.mpr hodd
      have hstep : Radix.descend pteFormat (tables t.mem) r (b ++ [k]) = some (pteFrame (tables t.mem x k)) := by
        rw [descend_append, hd, Option.bind_some, Radix.descend, if_pos hv]
        rfl
      have hown := h.owned.descend hr (by simpa using hway.1) hway.2 hstep
      refine ⟨own, _, he.trans (pteTable_eq (h.held _ _ hown).1), ?_, hstep, fun _ _ => rfl⟩
      exact
        { Extended.refl h with
          made := fun q hq => by
            rw [Finset.mem_singleton.mp hq, hstep]
            exact Option.some_ne_none _
          only := fun q _ _ hq => hq
          inUse := by
            have hset : absent t.mem r {b ++ [k]} = ∅ := by
              refine Finset.filter_false_of_mem fun q hq => ?_
              rw [Finset.mem_singleton.mp hq, hstep, Option.isNone_some]
              exact Bool.false_ne_true
            rw [hset]
            rfl }
  | fresh u g heven htaken he ht =>
      right
      rw [ht] at hclean ⊢
      have hempty := tables_eq_of_clean htaken hfresh hclean
      have hb : b.length < 2 := by
        have hlen := hway.1
        simp only [List.length_append, List.length_singleton] at hlen
        omega
      obtain ⟨hext, hnext, hleaves⟩ := h.add_table hr hx hb hd heven htaken hempty
      exact ⟨_, g, he, hext, hnext, hleaves⟩
  | full heven hfull he hbuddy =>
      refine .inl ⟨he, ?_, hbuddy, hnone heven⟩
      have hpages : t.Pages img := by
        rw [KState.Pages, hbuddy]
        exact h.pages
      exact OutOfPages.inUse hpages hfull

theorem mkPte_lt (hperm : perm < 2 ^ 64) : mkPte pa perm < 2 ^ 64 := by
  have hmask : (pa >>> 12) &&& 0xfffffffffff < 2 ^ 44 := Nat.lt_of_le_of_lt Nat.and_le_right (by decide)
  refine Nat.or_lt_two_pow ?_ hperm
  rw [Nat.shiftLeft_eq]
  omega

theorem mkPte_odd (h : perm % 2 = 1) : mkPte pa perm % 2 = 1 := by
  rw [← testBit_zero_iff] at h ⊢
  rw [mkPte, Nat.testBit_or, h, Bool.or_true]

theorem ways_eq (va : Nat) : ways va = {[vpn va 2]} ∪ {[vpn va 2, vpn va 1]} := Finset.insert_eq ..

theorem way_of_ways (hq : Allowed dom [] (path va)) : ∀ q ∈ ways va, Way dom q := by
  intro q hmem
  rw [ways_eq, Finset.mem_union, Finset.mem_singleton, Finset.mem_singleton] at hmem
  rcases hmem with rfl | rfl
  · exact ⟨by simp, hq.1, trivial⟩
  · exact ⟨by simp, hq⟩

/-- One page of `create_mapping`: it takes a frame for every table that is missing. -/
theorem TableTree.mapPage (h : TableTree img dom own s) (hfresh : fresh → Fresh img s) (hr : own r = some (r, []))
    (hq : Allowed dom [] (path va)) (hperm : perm < 2 ^ 64) :
    Spec fresh (mapPage img (framePtr r) va pa perm) s
      (fun _ t => ∃ own', Extended img dom r own own' s t (ways va) ∧
        (perm % 2 = 1 → ∀ x, Allowed dom [] (path x) → leafPte t.mem r x =
          if x / 4096 % 2 ^ 27 = va / 4096 % 2 ^ 27 then some (mkPte pa perm) else leafPte s.mem r x))
      fun e _ => e = .null ∧ 2 ^ img.order < s.buddy.inUse + (absent s.mem r (ways va)).card := by
  have hways := way_of_ways hq
  have h1 : [vpn va 2] ∈ ways va := Finset.mem_insert_self ..
  have h2 : [vpn va 2, vpn va 1] ∈ ways va := Finset.mem_insert_of_mem (Finset.mem_singleton_self _)
  have hroot := h.nextTable (k := vpn va 2) (b := []) (x := r) hfresh hr (hways _ h1) hr rfl
  refine Spec.bind (hroot.mono (fun _ _ hp => hp) fun _ _ hno => hno.elim)
    (fun _ => grows_last (grows_nextTable ..) fun _ => grows_storeEntry ..) ?_
  rintro p t (⟨rfl, huse, hbuddy, hnone⟩ | ⟨own₁, y, rfl, hext₁, hd₁, hleaves₁⟩)
  · refine Spec.bind (P := fun _ _ => False) ?_ (fun _ => grows_storeEntry ..) fun _ _ hno => hno.elim
    rw [ZjuOs.nextTable]
    refine ends_bind.mpr (ends_loadEntry_zero.mpr fun _ => ⟨rfl, ?_⟩)
    have hpos : 0 < (absent s.mem r (ways va)).card := Finset.card_pos.mpr ⟨_, mem_absent.mpr ⟨h1, hnone⟩⟩
    rw [hbuddy] at huse
    omega
  · have hy := hext₁.tree.owned.descend (hext₁.keep r _ hr) (by simp) (hways _ h1).2 hd₁
    have hfresh₁ : fresh → Fresh img t := fun hf => hext₁.sparing.fresh (hfresh hf)
    have hlast := hext₁.tree.nextTable (b := [vpn va 2]) (x := y) (k := vpn va 1) hfresh₁ (hext₁.keep r _ hr) (hways _ h2) hy hd₁
    refine Spec.bind (hlast.mono (fun _ _ hp => hp) fun _ _ hno => hno.elim) (fun _ => grows_storeEntry ..) ?_
    rintro p u (⟨rfl, huse, hbuddy, hnone⟩ | ⟨own₂, l, rfl, hext₂, hd₂, hleaves₂⟩)
    · refine ends_storeEntry_zero.mpr fun _ => ⟨rfl, ?_⟩
      have hnone₀ : Radix.descend pteFormat (tables s.mem) r [vpn va 2, vpn va 1] = none := by
        cases hs : Radix.descend pteFormat (tables s.mem) r [vpn va 2, vpn va 1] with
        | none => rfl
        | some f =>
            have hstay := hext₁.descend r r [] _ f hr (by simp) (hways _ h2).2 hs
            rw [List.singleton_append] at hnone
            rw [hstay] at hnone
            cases hnone
      have hlt : (absent s.mem r {[vpn va 2]}).card < (absent s.mem r (ways va)).card := by
        refine Finset.card_lt_card (Finset.ssubset_iff_of_subset ?_ |>.mpr ⟨_, mem_absent.mpr ⟨h2, hnone₀⟩, ?_⟩)
        · exact fun q hq => mem_absent.mpr ⟨by rw [Finset.mem_singleton.mp (mem_absent.mp hq).1]; exact h1, (mem_absent.mp hq).2⟩
        · intro hmem
          have hsame := Finset.mem_singleton.mp (mem_absent.mp hmem).1
          cases hsame
      have hcount := hext₁.inUse
      rw [hbuddy] at huse
      rw [List.nil_append] at hcount
      omega
    · have hext := hext₁.trans hr (fun q hq => hways q (by rw [Finset.mem_singleton.mp hq]; exact h1))
        (fun q hq => hways q (by rw [Finset.mem_singleton.mp hq]; exact h2)) hext₂
      have hl := hext.tree.owned.descend (hext.keep r _ hr) (by simp) (hways _ h2).2 hd₂
      have hlram := (hext.tree.held l _ hl).1
      refine (ends_storeEntry hlram (VPN_lt va 0)).mpr fun _ => ⟨own₂, ?_⟩
      have hlt : mkPte pa perm < 2 ^ 64 := mkPte_lt hperm
      have hleaf := hext.tree.edit_leaf (k := vpn va 0) (hext.keep r _ hr) hl rfl hlt
      have hall := hext.trans hr (fun q hq => hways q (ways_eq va ▸ hq)) (fun q hq => absurd hq (Finset.notMem_empty q)) hleaf
      rw [Finset.union_empty] at hall
      change Extended img dom r own own₂ s _ ({[vpn va 2]} ∪ {[vpn va 2, vpn va 1]}) at hall
      rw [← ways_eq] at hall
      refine ⟨hall, fun hodd x hx => ?_⟩
      have hr₂ := hext.keep r _ hr
      have hedit : tables (u.edit l (VPN va 0) (mkPte pa perm)).mem = set (tables u.mem) l (vpn va 0) (mkPte pa perm) :=
        tables_edit (k := vpn va 0) hlt
      rw [leafPte, hedit]
      split
      · next hpage =>
          rw [path, vpn_eq_of_page hpage 2 le_rfl, vpn_eq_of_page hpage 1 (by decide), vpn_eq_of_page hpage 0 (by decide), ← path]
          have hself := hext.tree.owned.lookup_set_leaf_self (k := vpn va 0) (e := mkPte pa perm) hl rfl hr₂ hq hd₂
          rw [if_pos (pteFormat_valid.mpr (mkPte_odd hodd))] at hself
          exact hself
      · next hpage =>
          have hne : (r, ([] : List (Fin 512)) ++ path x, vpn x 0) ≠ (r, path va, vpn va 0) := fun he => by
            obtain ⟨-, he⟩ := Prod.mk.inj he
            obtain ⟨hp, h0⟩ := Prod.mk.inj he
            exact hpage (page_of_vpn hp h0)
          have hother := hext.tree.owned.lookup_set_leaf (e := mkPte pa perm) hl rfl hr₂ rfl hx hne
          rw [hother, ← leafPte, hleaves₂ x hx, hleaves₁ x hx]

/-- `create_mapping` of a page. -/
theorem TableTree.createPage (h : TableTree img dom own s) (hfresh : fresh → Fresh img s) (hr : own r = some (r, []))
    (hq : Allowed dom [] (path va)) (hperm : perm < 2 ^ 64) :
    Spec fresh (createMapping img (framePtr r) va pa PGSIZE perm) s
      (fun _ t => WaysMade dom r s.mem t.mem (ways va) ∧ t.buddy.inUse = s.buddy.inUse + (absent s.mem r (ways va)).card)
      fun e _ => e = .null ∧ 2 ^ img.order < s.buddy.inUse + (absent s.mem r (ways va)).card := by
  rw [createMapping_page]
  exact Spec.bind (h.mapPage hfresh hr hq hperm) (fun _ => grows_pure (k := 0) _) fun _ _ ⟨_, hext, _⟩ =>
    .pure ⟨hext.waysMade hr, hext.inUse⟩

theorem way_of_waysTo {vas : List Nat} (hq : ∀ va ∈ vas, Allowed dom [] (path va)) : ∀ q ∈ waysTo vas, Way dom q := by
  induction vas with
  | nil => exact fun q hmem => absurd hmem (Finset.notMem_empty q)
  | cons va vas ih =>
      intro q hmem
      rcases Finset.mem_union.mp hmem with hmem | hmem
      · exact way_of_ways (hq va List.mem_cons_self) q hmem
      · exact ih (fun va' hva' => hq va' (List.mem_cons_of_mem _ hva')) q hmem

/-- `create_mapping` halts only when the tables that are missing do not fit into the free frames. -/
theorem TableTree.mapPages {n : Nat} (h : TableTree img dom own s) (hfresh : fresh → Fresh img s) (hr : own r = some (r, []))
    (hq : ∀ va' ∈ pageSeq n va, Allowed dom [] (path va')) (hperm : perm < 2 ^ 64) :
    Spec fresh (mapPages img (framePtr r) perm n va pa) s
      (fun _ t => ∃ own', Extended img dom r own own' s t (waysTo (pageSeq n va)) ∧
        (perm % 2 = 1 → ∀ x, Allowed dom [] (path x) →
          leafPte t.mem r x = overlay perm n va pa (leafPte s.mem r) x))
      fun e _ => e = .null ∧ 2 ^ img.order < s.buddy.inUse + (absent s.mem r (waysTo (pageSeq n va))).card := by
  induction n generalizing own s va pa with
  | zero => exact Spec.pure ⟨own, .refl h, fun _ _ _ => rfl⟩
  | succ n ih =>
      rw [pageSeq] at hq ⊢
      have hways := way_of_ways (hq va List.mem_cons_self)
      have hrest := way_of_waysTo fun va' hva' => hq va' (List.mem_cons_of_mem _ hva')
      have hpage : Spec fresh (ZjuOs.mapPage img (framePtr r) va pa perm) s _ _ := h.mapPage hfresh hr (hq va List.mem_cons_self) hperm
      rw [ZjuOs.mapPages]
      refine Spec.bind (hpage.mono (fun _ _ hp => hp) ?_) (fun _ => grows_mapPages ..) ?_
      · rintro e t ⟨he, hfull⟩
        refine ⟨he, hfull.trans_le (Nat.add_le_add_left (Finset.card_le_card ?_) _)⟩
        exact Finset.filter_subset_filter _ Finset.subset_union_left
      · rintro _ t ⟨own₁, hext, hleaf⟩
        refine (ih hext.tree (fun hf => hext.sparing.fresh (hfresh hf)) (hext.keep r _ hr)
          fun va' hva' => hq va' (List.mem_cons_of_mem _ hva')).mono ?_ ?_
        · rintro _ u ⟨own₂, hext₂, hleaf₂⟩
          refine ⟨own₂, hext.trans hr hways hrest hext₂, fun hodd x hx => ?_⟩
          rw [hleaf₂ hodd x hx, overlay]
          exact overlay_congr (hleaf hodd x hx)
        · rintro e u ⟨he, hfull⟩
          refine ⟨he, ?_⟩
          rw [hext.inUse] at hfull
          have hcard := (hext.waysMade hr).card_absent hrest
          rw [waysTo, List.foldr_cons, ← waysTo, hcard]
          omega

end Steps

end ZjuOs
