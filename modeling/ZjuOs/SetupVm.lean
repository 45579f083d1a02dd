import ZjuOs.Trees
import ZjuOs.TaskInit

/-! `setup_vm_final`: the page table of the kernel. -/
namespace ZjuOs
open Memory Exec Radix

/-- The order in which the linker script lays out the sections. -/
structure Image.Linked (img : Image) : Prop where
  text : img.stext ≤ img.etext
  rodata : img.etext ≤ img.srodata ∧ img.srodata ≤ img.erodata
  data : img.erodata ≤ img.sdata ∧ img.sdata ≤ img.sramdisk
  ramdisk : img.sramdisk ≤ img.eramdisk ∧ img.eramdisk ≤ img.ekernel

/-- Before `setup_vm_final`: the allocator has been set up, and there are no tasks. -/
structure Booted (img : Image) (s : KState) : Prop where
  pages : s.Pages img
  linked : img.Linked
  task : s.task = fun _ => 0
  number : s.tasksNumber < NR_TASKS

/-- The pages that `create_mapping` maps. -/
def pagesOf (va sz : Nat) : List Nat := pageSeq ((sz + PGSIZE - 1) % 2 ^ 64 / PGSIZE) va

/-- The leaf entries after `create_mapping` over the leaf entries `leaf`. -/
def mapping (va pa sz perm : Nat) (leaf : Nat → Option Nat) : Nat → Option Nat :=
  overlay perm ((sz + PGSIZE - 1) % 2 ^ 64 / PGSIZE) va pa leaf

/-- The leaf entries that `setup_vm_final` stores. -/
def kernelLeaves (img : Image) : Nat → Option Nat :=
  mapping img.sramdisk (VA2PA img.sramdisk) (img.eramdisk - img.sramdisk) 0xf <|
    mapping img.sdata (VA2PA img.sdata) ((img.phyEnd + PA2VA_OFFSET + (2 ^ 64 - img.sdata)) % 2 ^ 64) 0x7 <|
    mapping img.srodata (VA2PA img.srodata) (img.erodata - img.srodata) 0x3 <|
    mapping img.stext (VA2PA img.stext) (img.etext - img.stext) 0xb fun _ => none

/-- The ways to the inner tables of the kernel's pages. -/
@[irreducible] def kernelWays (img : Image) : Finset (List (Fin 512)) :=
  waysTo (pagesOf img.stext (img.etext - img.stext)) ∪ waysTo (pagesOf img.srodata (img.erodata - img.srodata)) ∪
    waysTo (pagesOf img.sdata ((img.phyEnd + PA2VA_OFFSET + (2 ^ 64 - img.sdata)) % 2 ^ 64)) ∪
    waysTo (pagesOf img.sramdisk (img.eramdisk - img.sramdisk))

theorem kernelWays_eq (img : Image) : kernelWays img =
    waysTo (pagesOf img.stext (img.etext - img.stext)) ∪ waysTo (pagesOf img.srodata (img.erodata - img.srodata)) ∪
      waysTo (pagesOf img.sdata ((img.phyEnd + PA2VA_OFFSET + (2 ^ 64 - img.sdata)) % 2 ^ 64)) ∪
      waysTo (pagesOf img.sramdisk (img.eramdisk - img.sramdisk)) := by rw [kernelWays]

/-- All inner entries count. -/
abbrev AnySlot (_ : List (Fin 512)) (_ : Fin 512) : Prop := True

section Ways
variable {img : Image} {va va' n sz : Nat} {q : List (Fin 512)} {vas : List Nat}

theorem allowed_any (p q : List (Fin 512)) : Allowed AnySlot p q := by
  induction q generalizing p with
  | nil => trivial
  | cons i q ih => exact ⟨trivial, ih _⟩

theorem mem_pageSeq (h : va' ∈ pageSeq n va) (hend : va + n * PGSIZE ≤ 2 ^ 64) : va ≤ va' ∧ va' < va + n * PGSIZE := by
  induction n generalizing va with
  | zero => cases h
  | succ n ih =>
      rw [pageSeq] at h
      rw [Nat.succ_mul] at hend ⊢
      rcases List.mem_cons.mp h with rfl | h
      · have : 0 < PGSIZE := by decide
        omega
      · by_cases hwrap : va + PGSIZE = 2 ^ 64
        · have hn : n = 0 := by
            simp only [PGSIZE] at *
            omega
          subst hn
          cases h
        · have hmod : (va + PGSIZE) % 2 ^ 64 = va + PGSIZE := Nat.mod_eq_of_lt (by omega)
          rw [hmod] at h
          have := ih h (by omega)
          omega

theorem mem_pagesOf (h : va' ∈ pagesOf va sz) (hend : va + sz + PGSIZE ≤ 2 ^ 64) : va ≤ va' ∧ va' < va + sz + PGSIZE := by
  have hbound : (sz + PGSIZE - 1) % 2 ^ 64 / PGSIZE * PGSIZE ≤ sz + PGSIZE - 1 :=
    (Nat.div_mul_le_self _ _).trans (Nat.mod_le _ _)
  have hpos : 0 < PGSIZE := by decide
  have := mem_pageSeq h (by omega)
  omega

/-- The root index of a kernel address. -/
theorem vpn_kernel (hlo : VM_START ≤ va) (hhi : va < 2 ^ 64) : 384 ≤ (vpn va 2).val := by
  simp only [vpn, VPN_eq, VM_START] at *
  omega

/-- Pages below one root entry have at most 513 ways. -/
theorem card_ways_le {k : Fin 512} {qs : Finset (List (Fin 512))}
    (h : ∀ q ∈ qs, q = [k] ∨ ∃ i, q = [k, i]) : qs.card ≤ 513 := by
  have hsub : qs ⊆ insert [k] (Finset.univ.image fun i : Fin 512 => [k, i]) := fun q hq => by
    rcases h q hq with rfl | ⟨i, rfl⟩
    · exact Finset.mem_insert_self ..
    · exact Finset.mem_insert_of_mem (Finset.mem_image_of_mem _ (Finset.mem_univ i))
  refine (Finset.card_le_card hsub).trans ((Finset.card_insert_le ..).trans ?_)
  have himage := Finset.card_image_le (s := (Finset.univ : Finset (Fin 512))) (f := fun i : Fin 512 => [k, i])
  rw [Finset.card_univ, Fintype.card_fin] at himage
  omega

theorem ways_of_waysTo (hq : q ∈ waysTo vas) : ∃ va ∈ vas, q = [vpn va 2] ∨ ∃ i, q = [vpn va 2, i] := by
  induction vas with
  | nil => exact absurd hq (Finset.notMem_empty q)
  | cons va vas ih =>
      rcases Finset.mem_union.mp hq with hq | hq
      · rw [ways_eq, Finset.mem_union, Finset.mem_singleton, Finset.mem_singleton] at hq
        exact ⟨va, List.mem_cons_self, hq.imp_right fun he => ⟨_, he⟩⟩
      · obtain ⟨va', hmem, hways⟩ := ih hq
        exact ⟨va', List.mem_cons_of_mem _ hmem, hways⟩

theorem Image.end_le (img : Image) : img.phyEnd + PA2VA_OFFSET + PGSIZE ≤ 2 ^ 64 := by
  have horder := Nat.pow_le_pow_right (show 0 < 2 by decide) img.order_le
  have hend : img.phyEnd = PHY_START + 2 ^ img.order * PGSIZE := rfl
  generalize 2 ^ img.order = k at *
  simp only [PGSIZE, PHY_START, PA2VA_OFFSET] at *
  omega

/-- The kernel maps only addresses from `VM_START` on. -/
theorem Image.Linked.ways (hl : img.Linked) (hq : q ∈ kernelWays img) :
    ∃ va, VM_START ≤ va ∧ va < img.phyEnd + PA2VA_OFFSET + PGSIZE ∧ (q = [vpn va 2] ∨ ∃ i, q = [vpn va 2, i]) := by
  have hpart : ∀ {va sz}, VM_START ≤ va → va + sz ≤ img.phyEnd + PA2VA_OFFSET → img.phyEnd + PA2VA_OFFSET + PGSIZE ≤ 2 ^ 64 →
      q ∈ waysTo (pagesOf va sz) →
      ∃ va, VM_START ≤ va ∧ va < img.phyEnd + PA2VA_OFFSET + PGSIZE ∧ (q = [vpn va 2] ∨ ∃ i, q = [vpn va 2, i]) := by
    intro va sz hlo hhi hend hmem
    obtain ⟨va', hva', hway⟩ := ways_of_waysTo hmem
    obtain ⟨hle, hlt⟩ := mem_pagesOf hva' (by omega)
    exact ⟨va', hlo.trans hle, by omega, hway⟩
  obtain ⟨h1, ⟨h2, h3⟩, ⟨h4, h5⟩, h6, h7⟩ := hl
  have hstart := img.start.1
  have horder := Nat.pow_le_pow_right (show 0 < 2 by decide) img.order_le
  have hsize := img.ekernel_le
  have hend : img.phyEnd = PHY_START + 2 ^ img.order * PGSIZE := rfl
  generalize 2 ^ img.order = k at *
  rw [kernelWays, Finset.mem_union, Finset.mem_union, Finset.mem_union] at hq
  simp only [VM_START, PGSIZE, PHY_START, PA2VA_OFFSET] at *
  rcases hq with ((hq | hq) | hq) | hq
  · exact hpart (by omega) (by omega) (by omega) hq
  · exact hpart (by omega) (by omega) (by omega) hq
  · exact hpart (by omega) (by omega) (by omega) hq
  · exact hpart (by omega) (by omega) (by omega) hq

end Ways

section SetupVm
variable {img : Image} {dom : List (Fin 512) → Fin 512 → Prop} {own own' : Nat → Option (Nat × List (Fin 512))}
  {s t : KState} {r va pa sz perm : Nat} {qs : Finset (List (Fin 512))} {fresh : Prop}

theorem grows_mapping (img : Image) (pgtbl va pa sz perm : Nat) :
    Grows (2 * ((sz + PGSIZE - 1) % 2 ^ 64 / PGSIZE)) (createMapping img pgtbl va pa sz perm) := grows_mapPages ..

/-- `create_mapping` goes on with tables that have been extended. -/
theorem Extended.createMapping (h : Extended img dom r own own' s t qs) (hr : own r = some (r, []))
    (hqs : ∀ q ∈ qs, Way dom q) (hfresh : fresh → Fresh img s) (hq : ∀ va' ∈ pagesOf va sz, Allowed dom [] (path va'))
    (hperm : perm < 2 ^ 64) :
    Spec fresh (createMapping img (framePtr r) va pa sz perm) t
      (fun _ u => ∃ own'', Extended img dom r own own'' s u (qs ∪ waysTo (pagesOf va sz)) ∧
        (perm % 2 = 1 → ∀ x, Allowed dom [] (path x) → leafPte u.mem r x = mapping va pa sz perm (leafPte t.mem r) x))
      fun e _ => e = .null ∧ 2 ^ img.order < s.buddy.inUse + (absent s.mem r (qs ∪ waysTo (pagesOf va sz))).card := by
  have hways := way_of_waysTo hq
  refine (h.tree.mapPages (fun hf => h.sparing.fresh (hfresh hf)) (h.keep r _ hr) hq hperm).mono ?_ ?_
  · rintro _ u ⟨own'', hext, hleaf⟩
    exact ⟨own'', h.trans hr hqs hways hext, hleaf⟩
  · rintro e u ⟨he, hfull⟩
    rw [h.inUse] at hfull
    rw [(h.waysMade hr).card_absent hways]
    exact ⟨he, by rw [pagesOf]; omega⟩

/-- The zeroed root of the kernel, before the first mapping. -/
@[irreducible] def emptyRoot (img : Image) (s : KState) : KState :=
  s.withMem (fill s.mem (img.swapperFrame * 4096) PGSIZE 0)

theorem emptyRoot_eq : emptyRoot img s = s.withMem (fill s.mem (img.swapperFrame * 4096) PGSIZE 0) := by rw [emptyRoot]

@[simp] theorem emptyRoot_buddy : (emptyRoot img s).buddy = s.buddy := by rw [emptyRoot_eq, KState.withMem_buddy]


/-- The tables there are then. -/
def rootOnly (img : Image) (f : Nat) : Option (Nat × List (Fin 512)) :=
  if f = img.swapperFrame then some (img.swapperFrame, []) else none

theorem tables_emptyRoot (k : Fin 512) : tables (emptyRoot img s).mem img.swapperFrame k = 0 := by
  have hk := k.isLt
  rw [emptyRoot_eq, KState.withMem_mem]
  refine ld_eq_zero fun x hlo hhi => fill_inside ⟨Nat.le_of_add_right_le hlo, ?_⟩
  generalize img.swapperFrame * 4096 = a at *
  simp only [PGSIZE]
  omega

theorem Booted.tree (h : Booted img s) : TableTree img AnySlot (rootOnly img) (emptyRoot img s) where
  pages := by
    rw [KState.Pages, emptyRoot_buddy]
    exact h.pages
  held := fun f x hf => by
    rw [rootOnly] at hf
    split at hf
    · next hswap =>
        rw [hswap, KState.ref, emptyRoot_buddy]
        exact ⟨swapperFrame_ram img, h.pages.reserved (swapperFrame_ram img) img.swapperFrame_lt⟩
    · cases hf
  owned := ⟨fun f r p i hf _ _ hv => by
    rw [rootOnly] at hf
    split at hf
    · next hswap =>
        rw [hswap, tables_emptyRoot] at hv
        exact absurd (pteFormat_valid.mp hv) (by decide)
    · cases hf⟩

/-- What `setup_vm_final` leaves behind: the tables of the kernel's pages below a zeroed root, and the fence. -/
structure KernelMapped (img : Image) (own : Nat → Option (Nat × List (Fin 512))) (s t : KState) : Prop where
  out : ∃ u satp, Extended img AnySlot img.swapperFrame (rootOnly img) own (emptyRoot img s) u (kernelWays img) ∧
    t = { u with satp }.log (.fence u.mem)
  leaf : ∀ x, leafPte t.mem img.swapperFrame x = kernelLeaves img x

theorem way_any {vas : List Nat} : ∀ q ∈ waysTo vas, Way AnySlot q := way_of_waysTo fun _ _ => allowed_any _ _

theorem Booted.sparing (h : Booted img s) : Sparing img s (emptyRoot img s) := by
  rw [emptyRoot_eq]
  refine .withMem fun f _ h0 o ho => fill_outside ?_
  have hne := h.pages.reserved (swapperFrame_ram img) img.swapperFrame_lt
  have hf : f ≠ img.swapperFrame := by
    rintro rfl
    exact hne h0
  simp only [PGSIZE]
  omega

/-- One of the mappings of `setup_vm_final`, on the tables that those before it have left. -/
theorem Booted.mapping (h : Booted img s) (hfresh : fresh → Fresh img s)
    (hext : Extended img AnySlot img.swapperFrame (rootOnly img) own (emptyRoot img s) t qs) (hqs : ∀ q ∈ qs, Way AnySlot q)
    (hsub : qs ∪ waysTo (pagesOf va sz) ⊆ kernelWays img) (hperm : perm < 2 ^ 64) (hodd : perm % 2 = 1) :
    Spec fresh (createMapping img (framePtr img.swapperFrame) va pa sz perm) t
      (fun _ u => ∃ own', Extended img AnySlot img.swapperFrame (rootOnly img) own' (emptyRoot img s) u
          (qs ∪ waysTo (pagesOf va sz)) ∧
        ∀ x, leafPte u.mem img.swapperFrame x = mapping va pa sz perm (leafPte t.mem img.swapperFrame) x)
      fun e _ => e = .null ∧ 2 ^ img.order < s.buddy.inUse + (kernelWays img).card := by
  have hroot : rootOnly img img.swapperFrame = some (img.swapperFrame, []) := if_pos rfl
  refine (hext.createMapping hroot hqs (fun hf => h.sparing.fresh (hfresh hf)) (fun _ _ => allowed_any _ _) hperm).mono
    (fun _ u ⟨own', hu, hleaf⟩ => ⟨own', hu, fun x => hleaf hodd x (allowed_any _ _)⟩) fun e u he => ⟨he.1, he.2.trans_le ?_⟩
  rw [emptyRoot_buddy]
  exact Nat.add_le_add_left (Finset.card_le_card ((Finset.filter_subset _ _).trans hsub)) _

/-- `setup_vm_final` takes at most one frame for each of the kernel's ways, and halts only when they do not fit. -/
theorem setupVmFinal_spec (h : Booted img s) (hfresh : fresh → Fresh img s) :
    Spec fresh (setupVmFinal img) s (fun _ t => ∃ own, KernelMapped img own s t)
      fun e _ => e = .null ∧ 2 ^ img.order < s.buddy.inUse + (kernelWays img).card := by
  have hmemset := @ends_memset img s
  rw [setupVmFinal, swapperPgDir_eq]
  refine ends_bind.mpr ?_
  rw [← Nat.add_zero (framePtr img.swapperFrame)]
  refine (hmemset (swapperFrame_ram img) (Nat.le_of_ble_eq_true rfl)).mpr ?_
  rw [Nat.add_zero, Nat.add_zero, ← emptyRoot_eq]
  have hlast : ∀ satp, ∀ _ : Unit, Grows 0 (do modify fun s' : KState => { s' with satp }; sfenceVma) := fun satp _ =>
    grows_bind (grows_modify fun s' => .of_eq rfl rfl) fun _ => grows_sfenceVma
  have hdisk := fun satp (_ : Unit) => grows_last (grows_mapping img (framePtr img.swapperFrame) img.sramdisk
    (VA2PA img.sramdisk) (img.eramdisk - img.sramdisk) 0xf) (hlast satp)
  have hdata := fun satp (_ : Unit) => grows_add (grows_mapping img (framePtr img.swapperFrame) img.sdata
    (VA2PA img.sdata) ((img.phyEnd + PA2VA_OFFSET + (2 ^ 64 - img.sdata)) % 2 ^ 64) 0x7) (hdisk satp) le_rfl
  have hways : ∀ {va sz}, ∀ q ∈ waysTo (pagesOf va sz), Way AnySlot q := fun {_ _} => way_any
  have hboth : ∀ {qs qs' : Finset (List (Fin 512))}, (∀ q ∈ qs, Way AnySlot q) → (∀ q ∈ qs', Way AnySlot q) →
      ∀ q ∈ qs ∪ qs', Way AnySlot q := fun h h' q hq => (Finset.mem_union.mp hq).elim (h q) (h' q)
  refine Spec.bind (h.mapping hfresh (.refl h.tree) (fun q hq => absurd hq (Finset.notMem_empty q)) ?_ (by decide) (by decide))
    (fun _ => grows_add (grows_mapping ..) (hdata _) le_rfl) ?_
  · rw [Finset.empty_union, kernelWays]
    exact (Finset.subset_union_left.trans Finset.subset_union_left).trans Finset.subset_union_left
  rintro _ t₁ ⟨own₁, h₁, hleaf₁⟩
  rw [Finset.empty_union] at h₁
  refine Spec.bind (h.mapping hfresh h₁ hways ?_ (by decide) (by decide)) (hdata _) ?_
  · rw [kernelWays]
    exact Finset.subset_union_left.trans Finset.subset_union_left
  rintro _ t₂ ⟨own₂, h₂, hleaf₂⟩
  refine Spec.bind (h.mapping hfresh h₂ (hboth hways hways) ?_ (by decide) (by decide)) (hdisk _) ?_
  · rw [kernelWays]
    exact Finset.subset_union_left
  rintro _ t₃ ⟨own₃, h₃, hleaf₃⟩
  refine Spec.bind (h.mapping hfresh h₃ (hboth (hboth hways hways) hways) (kernelWays_eq img).ge (by decide) (by decide)) (hlast _) ?_
  rintro _ t₄ ⟨own₄, h₄, hleaf₄⟩
  rw [← kernelWays_eq] at h₄
  refine ends_bind.mpr (ends_modify.mpr (ends_modify.mpr fun _ => ⟨own₄, ⟨_, _, h₄, rfl⟩, fun x => ?_⟩))
  have hnone : leafPte (emptyRoot img s).mem img.swapperFrame = fun _ => none := by
    funext y
    exact lookup_of_empty fun k => pteFormat_invalid.mpr (by rw [tables_emptyRoot])
  have e₁ : leafPte t₁.mem img.swapperFrame = _ := funext hleaf₁
  have e₂ : leafPte t₂.mem img.swapperFrame = _ := funext hleaf₂
  have e₃ : leafPte t₃.mem img.swapperFrame = _ := funext hleaf₃
  rw [KState.log_mem, hleaf₄ x, e₃, e₂, e₁, hnone, kernelLeaves]

theorem KernelMapped.tree (h : KernelMapped img own s t) : TableTree img AnySlot own t := by
  obtain ⟨u, satp, hext, rfl⟩ := h.out
  exact ⟨hext.tree.pages, hext.tree.held, hext.tree.owned⟩

theorem KernelMapped.root (h : KernelMapped img own s t) : own img.swapperFrame = some (img.swapperFrame, []) := by
  obtain ⟨u, satp, hext, rfl⟩ := h.out
  exact hext.keep _ _ (if_pos rfl)

/-- Below a root index of the user half nothing is mapped. -/
theorem KernelMapped.ready (h : Booted img s) (hk : KernelMapped img own s t) : Ready img t := by
  obtain ⟨u, satp, hext, rfl⟩ := hk.out
  refine ⟨hext.tree.pages, fun i hi => ?_, ?_, ?_⟩
  · have hnone : Radix.descend pteFormat (tables u.mem) img.swapperFrame [i] = none := by
      refine hext.only [i] ⟨Nat.le_succ 1, allowed_any _ _⟩ (fun hmem => ?_) ?_
      · obtain ⟨va, hlo, hhi, hway⟩ := h.linked.ways hmem
        have hslot : i = vpn va 2 := by
          rcases hway with he | ⟨j, he⟩
          · exact List.head_eq_of_cons_eq he
          · exact List.head_eq_of_cons_eq he
        have := vpn_kernel hlo (hhi.trans_le img.end_le)
        omega
      · rw [Radix.descend, tables_emptyRoot]
        rfl
    rw [Radix.descend] at hnone
    split at hnone
    · cases hnone
    · next hv => exact pteFormat_invalid.mp (Bool.not_eq_true _ ▸ hv)
  · change u.task = _
    rw [hext.tasks.task, emptyRoot_eq, KState.withMem_task]
    exact h.task
  · change u.tasksNumber < _
    rw [hext.tasks.tasksNumber, emptyRoot_eq, KState.withMem_tasksNumber]
    exact h.number

end SetupVm

end ZjuOs
