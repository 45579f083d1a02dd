import ZjuOs.ForkList
import ZjuOs.Isolation

/-! `do_fork` copies the pages of the parent at once. What the tasks see is what they see after `do_cow_fork`. -/
namespace ZjuOs
open Memory Exec Sharing

/-- The page of `va`, which is mapped by `old` in another task, is mapped by `pte` in task `j`, and has been copied into a
frame that was free. -/
structure Duplicated (img : Image) (lay lay' : Layout) (s t : KState) (j va old pte : Nat) : Prop where
  mapped : Remapped img lay lay' s t (lay.root j) va pte none
  free : s.ref (pteFrame pte) = 0
  bytes : pageBytes t.mem (pteFrame pte) = pageBytes s.mem (pteFrame old)

section CopyPage
variable {img : Image} {lay : Layout} {s : KState} {i j va old flags : Nat} {fresh : Prop}

theorem copyPage_spec (h : Paging img lay s) (hfresh : fresh → Fresh img s) (hr : Running lay s i) (hj : s.Live j)
    (hlow : va < 2 ^ 38) (halign : va % 4096 = 0) (hpte : leafPte s.mem (lay.root i) va = some old) :
    Spec fresh (copyPage img (s.task j) va flags) s (fun _ t => ∃ lay' pte, Duplicated img lay lay' s t j va old pte)
      fun e t => (e = .null ∧ OutOfPages img t) ∨ (e = .fault ∧ old.testBit PTE_R = false) := by
  have hva : UserVa va := .of_lt hlow
  have hroot := (h.task_ok hr.live).root
  obtain ⟨-, -, -, -, -, hold, -⟩ := h.of_leafPte hroot hva hpte
  rw [copyPage]
  refine ends_bind.mpr ((allocPage_spec h.pages).mono ?_ fun _ _ hno => hno.elim)
  rintro p u (⟨rfl, rfl, hfull⟩ | ⟨g, rfl, ht⟩)
  · refine ends_bind.mpr (ends_notNull.mpr ?_)
    rw [if_pos rfl]
    exact fun _ => .inl ⟨rfl, hfull⟩
  have hfree : lay.role g = .other := ht.other h
  have hdata : (lay.withRole g .data).role g = .data := role_withRole
  have hne : g ≠ pteFrame old := (ht.ne h (by rw [hold]; exact Role.noConfusion)).symm
  refine ends_bind.mpr (ends_notNull.mpr ?_)
  rw [if_neg (framePtr_ne_zero g), ← Nat.add_zero (framePtr g)]
  refine ends_bind.mpr ((ends_memset ht.ram (by decide)).mpr ?_)
  rw [Nat.add_zero, Nat.add_zero]
  have hcalm := ((Calm.refl h).take ht).data hdata hfree (m := fill u.mem (g * 4096) PGSIZE 0) fun x hx => fill_outside hx
  have hsatp : satpRoot (u.withMem (fill u.mem (g * 4096) PGSIZE 0)).satp = (lay.withRole g .data).root i := by
    rw [KState.withMem_satp, ht.tasks.satp]
    exact hr.satp
  have hleaf : leafPte (u.withMem (fill u.mem (g * 4096) PGSIZE 0)).mem ((lay.withRole g .data).root i) va = some old := by
    rw [hcalm.root, hcalm.leaves _ _ hroot hva]
    exact hpte
  refine ends_bind.mpr ((hcalm.paging.ends_memcpy_page hsatp (hcalm.root_role hroot) hlow halign hleaf hdata hne).mono ?_
    fun _ _ he _ => .inr ⟨he.1, he.2.2⟩)
  rintro _ w ⟨-, rfl⟩
  have hcopied := hcalm.data hdata hfree
    (m := copy (u.withMem (fill u.mem (g * 4096) PGSIZE 0)).mem (g * 4096) (pteFrame old * 4096) 4096)
    fun x hx => copy_outside hx
  generalize hm : copy (u.withMem (fill u.mem (g * 4096) PGSIZE 0)).mem (g * 4096) (pteFrame old * 4096) 4096 = m at hcopied ⊢
  have hbytes : pageBytes m g = pageBytes s.mem (pteFrame old) := by
    funext o
    have ho : (o : Nat) < 4096 := o.isLt
    change m (g * 4096 + o) = s.mem (pteFrame old * 4096 + o)
    rw [← hm, copy_inside (by omega), Nat.add_sub_cancel_left, KState.withMem_mem, ← ht.mem]
    exact fill_outside (by simp only [PGSIZE]; omega)
  have hlive := hcopied.tasks.live.mpr hj
  have ok := hcopied.paging.task_ok hlive
  have hram := hcopied.paging.page_ram hlive
  rw [← hcopied.tasks.task, ok.ptr]
  refine ends_bind.mpr ((ends_loadWord hram (by decide)).mpr ?_)
  rw [ok.pgd]
  refine (createMapping_spec hcopied.paging (fun hf => hcopied.sparing.fresh (hfresh hf)) ok.root hva hdata
    (VA2PA_page ht.ram) demandPerm_lt demandPerm_odd demandPerm_user).mono ?_ fun _ _ he => .inl he
  rintro _ t ⟨lay', hmap⟩
  have hframe : pteFrame (2 ^ 10 * g + (0x11 ||| (flags &&& 0xe))) = g := pteFrame_mk (demandPerm_lt.trans (by decide))
  have hrole : lay'.role g = .data := by rw [hmap.role g (by rw [hdata]; exact Role.noConfusion), hdata]
  refine ⟨lay', _, hcopied.remapped hmap, ?_, ?_⟩
  · rw [hframe]
    exact ht.free
  · rw [hframe, ← hbytes]
    exact pageBytes_congr (hmap.frame g (Role.not_table hrole))

end CopyPage

/-- No frame has two pages of task `j`. -/
def KState.Apart (s : KState) (j : Nat) : Prop :=
  ∀ n n' pte pte', s.userPte (j, n) = some pte → s.userPte (j, n') = some pte' → pteFrame pte = pteFrame pte' → n = n'

/-- A frame that task `j` does not have yet is mapped. -/
theorem KState.Apart.update {t u : KState} {j m pte : Nat} (h : t.Apart j)
    (hmap : u.userPte = Function.update t.userPte (j, m) (some pte))
    (hnew : ∀ n old, t.userPte (j, n) = some old → pteFrame old ≠ pteFrame pte) : u.Apart j := by
  have hself : ∀ pte₁, u.userPte (j, m) = some pte₁ → pte₁ = pte := fun pte₁ hpte => by
    rw [hmap, Function.update_self] at hpte
    exact (Option.some.inj hpte).symm
  have hother : ∀ n pte₁, n ≠ m → u.userPte (j, n) = some pte₁ → t.userPte (j, n) = some pte₁ := fun n pte₁ hn hpte => by
    rwa [hmap, Function.update_of_ne fun he => hn (congrArg Prod.snd he)] at hpte
  intro n n' pte₁ pte₂ h₁ h₂ he
  by_cases hn : n = m <;> by_cases hn' : n' = m
  · rw [hn, hn']
  · rw [hn] at h₁
    exact absurd (he.symm.trans (congrArg pteFrame (hself _ h₁))) (hnew _ _ (hother _ _ hn' h₂))
  · rw [hn'] at h₂
    exact absurd (he.trans (congrArg pteFrame (hself _ h₂))) (hnew _ _ (hother _ _ hn h₁))
  · exact h n n' pte₁ pte₂ (hother _ _ hn h₁) (hother _ _ hn' h₂) he

section Loops
variable {img : Image} {lay : Layout} {s t u : KState} {i j c k N : Nat} {l done : List Nat} {fresh : Prop}

/-- The list loop of `do_fork` of task `i`, whose list is `l`, has given `k` areas and the pages `done` to task `j`. -/
structure DupRun (img : Image) (lay : Layout) (s : KState) (i j k : Nat) (l : List Nat) (t : KState) (done : List Nat) : Prop where
  paging : ∃ lay', Paging img lay' t ∧ Running lay' t i ∧ lay'.page = lay.page ∧ lay'.root = lay.root
  task : t.task = s.task
  live : ∀ f, img.Ram f → s.ref f ≠ 0 → t.ref f ≠ 0
  areas : ∀ p ∈ l, SameArea (s.vma p) (t.vma p)
  others : ∀ x, x.1 ≠ j → t.userPte x = s.userPte x
  own : ∀ n pte, t.userPte (j, n) = some pte → s.ref (pteFrame pte) = 0
  apart : t.Apart j
  pages : ∀ x, t.pages x = if x.1 = j ∧ x.2 ∈ done.map pageOf then s.pages (i, x.2) else s.pages x
  sparing : Sparing img s t
  within : Within (k + 3 * done.length) s t

/-- How the loops of `do_fork` halt: no frame is left, or the parent has a page that it must not read. -/
inductive CopyHalts (img : Image) (s : KState) (i N : Nat) : Halt → KState → Prop
  | full {t : KState} (h : OutOfPages img t) (hw : Within N s t) : CopyHalts img s i N .null t
  | unreadable {t : KState} {n pte : Nat} (h : s.userPte (i, n) = some pte) (hr : pte.testBit PTE_R = false) :
      CopyHalts img s i N .fault t

theorem CopyHalts.trans {N' : Nat} {e : Halt} (h : CopyHalts img t i N e u) (hw : Within k s t) (hN : k + N ≤ N')
    (hmap : t.userPte = s.userPte) : CopyHalts img s i N' e u := by
  cases h with
  | full hfull hin => exact .full hfull (hw.trans hin hN)
  | unreadable h hr => exact .unreadable (hmap ▸ h) hr

theorem DupRun.nil (h : Paging img lay s) (hr : Running lay s i) (hnew : ∀ n, s.userPte (j, n) = none) :
    DupRun img lay s i j 0 l s [] where
  paging := ⟨lay, h, hr, rfl, rfl⟩
  task := rfl
  live := fun _ _ hne => hne
  areas := fun _ _ => .refl _
  others := fun _ _ => rfl
  own := fun n pte hpte => by
    rw [hnew] at hpte
    cases hpte
  apart := fun n n' pte pte' hpte => by
    rw [hnew] at hpte
    cases hpte
  pages := fun x => (if_neg fun hno => List.not_mem_nil hno.2).symm
  sparing := .refl s
  within := .of_eq rfl rfl

/-- `do_mmap` for the child is not visible in the pages. -/
theorem DupRun.mmapped (h : DupRun img lay s i j k l t done) (hnode : ∀ p ∈ l, ∃ f, p = framePtr f ∧ img.Ram f ∧ s.ref f ≠ 0)
    {g : Nat} {a : VmArea} (hm : Mmapped img t u c g a) (hw : Within 1 t u) (hj : s.Live j) (hc : lay.page j = c) :
    DupRun img lay s i j (k + 1) l u done := by
  obtain ⟨lay', hp, hrun, hpage, hroot⟩ := h.paging
  have hlive : t.Live j := by rwa [KState.Live, h.task]
  have hrole : lay'.role c = .task := by
    rw [← hc, ← hpage]
    exact (hp.task_ok hlive).page
  have hp' := hm.paging hp hrole
  have hkeep := hm.keepsTables hp hrole
  have hmap : u.userPte = t.userPte := hp.userPte_congr hp' hm.task rfl fun r va hr hva => hp.leafPte_congr hkeep hr hva
  have hpages : u.pages = t.pages := hp.pages_congr hmap fun f hf => by
    rw [hm.mem]
    have hfc : f ≠ c := by
      rintro rfl
      rw [hrole] at hf
      cases hf
    exact sameFrame_sd fun o ho => by simp only [TASK_MM]; omega
  constructor
  case paging =>
    refine ⟨lay', hp', ⟨hrun.pos, hrun.lt, ?_, ?_, ?_⟩, hpage, hroot⟩
    · rw [hm.task]
      exact hrun.some
    · rw [hm.current, hm.task]
      exact hrun.current
    · rw [hm.satp]
      exact hrun.satp
  case task => exact hm.task.trans h.task
  case live =>
    intro f hf hne
    rw [hm.live hf (h.live f hf hne)]
    exact h.live f hf hne
  case areas =>
    intro p hpl
    refine (h.areas p hpl).trans (hm.rest p ?_)
    rintro rfl
    obtain ⟨f, hf, hram, href⟩ := hnode _ hpl
    exact h.live f hram href (framePtr_inj hf ▸ hm.free)
  case others =>
    intro x hx
    rw [hmap]
    exact h.others x hx
  case own =>
    intro n pte hpte
    rw [hmap] at hpte
    exact h.own n pte hpte
  case apart =>
    intro n n' pte pte' hpte hpte'
    rw [hmap] at hpte hpte'
    exact h.apart n n' pte pte' hpte hpte'
  case pages =>
    intro x
    rw [hpages]
    exact h.pages x
  case sparing => exact h.sparing.trans (hm.sparing (hp.held c (by rw [hrole]; exact Role.noConfusion)).2.2)
  case within => exact h.within.trans hw (by omega)

/-- A page is given to the child. -/
theorem DupRun.copied (h : DupRun img lay s i j k l t done) {lay' lay'' : Layout} {va old pte : Nat} (hp : Paging img lay' t)
    (hi : t.Live i) (hj : t.Live j) (hij : i ≠ j) (hr : Running lay' t i) (hpage : lay'.page = lay.page)
    (hroot : lay'.root = lay.root) (hva : UserVa va) (hold : leafPte t.mem (lay'.root i) va = some old)
    (hd : Duplicated img lay' lay'' t u j va old pte) (hw : Within 3 t u) :
    DupRun img lay s i j k l u (done ++ [va]) := by
  have hmap := hd.mapped.userPte hp hj hva
  have hpages := hd.mapped.pages hp hj hva
  have hparent : s.pages (i, pageOf va) = some (pageBytes t.mem (pteFrame old)) := by
    have hslot : t.userPte (slotOf i va) = some old := (hp.userPte_va hi hva).trans hold
    have hbefore : t.pages (slotOf i va) = s.pages (i, pageOf va) := by
      rw [h.pages]
      exact if_neg fun hno => hij hno.1
    rw [← hbefore]
    exact KState.pages_some hslot
  have hrun := hd.mapped.tasks.running hr
  constructor
  case paging =>
    refine ⟨lay'', hd.mapped.paging, { hrun with satp := ?_ }, hd.mapped.page.trans hpage, hd.mapped.root.trans hroot⟩
    rw [hd.mapped.root]
    exact hrun.satp
  case task => exact hd.mapped.tasks.task.trans h.task
  case live => exact fun f hf hne => hd.mapped.live (fun _ hno => by cases hno) hf (h.live f hf hne)
  case areas =>
    intro p hpl
    rw [hd.mapped.tasks.vma]
    exact h.areas p hpl
  case others =>
    intro x hx
    rw [hmap, Function.update_of_ne fun he => hx (by rw [he])]
    exact h.others x hx
  case own =>
    intro n pte' hpte
    rw [hmap] at hpte
    by_cases hn : (j, n) = (j, va / PGSIZE % 2 ^ 27)
    · rw [hn, Function.update_self] at hpte
      obtain rfl := Option.some.inj hpte
      by_contra hne
      have hram : img.Ram (pteFrame pte) := by
        have hnew : u.userPte (j, va / PGSIZE % 2 ^ 27) = some pte := by rw [hmap, Function.update_self]
        exact (hd.mapped.paging.userPte_held hnew).1
      exact h.live _ hram hne hd.free
    · rw [Function.update_of_ne hn] at hpte
      exact h.own n pte' hpte
  case apart =>
    exact h.apart.update hmap fun n old hpte he => (hp.userPte_held hpte).2 (he ▸ hd.free)
  case pages =>
    intro x
    have hmem : ∀ n, n ∈ (done ++ [va]).map pageOf ↔ n ∈ done.map pageOf ∨ n = pageOf va := fun n => by
      rw [List.map_append, List.map_singleton, List.mem_append, List.mem_singleton]
    rw [hpages]
    by_cases hx : x = slotOf j va
    · rw [hx, Function.update_self, if_pos ⟨rfl, (hmem _).mpr (.inr rfl)⟩, hd.bytes]
      exact hparent.symm
    · rw [Function.update_of_ne hx, h.pages]
      refine if_congr (and_congr_right fun h1 => ?_) rfl rfl
      rw [hmem]
      exact ⟨.inl, fun h2 => h2.resolve_right fun h3 => hx (Prod.ext h1 h3)⟩
  case sparing => exact h.sparing.trans hd.mapped.sparing
  case within =>
    refine h.within.trans hw ?_
    rw [List.length_append, List.length_singleton]
    omega

/-- The parent maps what it mapped. -/
theorem DupRun.leaf (h : DupRun img lay s i j k l t done) (hs : Paging img lay s) (hi : s.Live i) (hij : i ≠ j) {lay' : Layout}
    (hp : Paging img lay' t) {va : Nat} (hva : UserVa va) : leafPte t.mem (lay'.root i) va = leafPte s.mem (lay.root i) va := by
  have hlive : t.Live i := by rwa [KState.Live, h.task]
  rw [← hp.userPte_va hlive hva, ← hs.userPte_va hi hva]
  exact h.others _ hij

/-- The page loop copies the mapped pages. -/
theorem DupRun.pageRule (hs : Paging img lay s) (hfresh : fresh → Fresh img s) (hi : s.Live i) (hj : s.Live j) (hij : i ≠ j)
    (flags : Nat) (all : List Nat) (hN : k + 3 * all.length ≤ N) :
    PageRule fresh img (fun va => copyPage img (s.task j) va flags) (fun va => (leafPte s.mem (lay.root i) va).isSome)
      (DupRun img lay s i j k l) (CopyHalts img s i N) all := by
  constructor
  case grows => exact ⟨3, fun va => grows_copyPage ..⟩
  case check =>
    intro t done va hR hva
    obtain ⟨lay', hp, hr, -, -⟩ := hR.paging
    have huser : UserVa va := .of_lt (by simp only [PGSIZE, USER_END] at hva; omega)
    have ok := hp.task_ok hr.live
    rw [ends_bind, ends_get, ends_bind, hr.current, ok.ptr, ends_loadWord (hp.page_ram hr.live) (by decide), ok.pgd]
    refine (checkValid_spec hp ok.root huser).mono (fun v u hv => ⟨hv.1, ?_⟩) fun _ _ hno => hno
    rw [hv.2, hR.leaf hs hi hij hp huser]
  case visit =>
    intro t done va hR hva halign hmapped hall
    obtain ⟨lay', hp, hr, hpage, hroot⟩ := hR.paging
    have hlow : va < 2 ^ 38 := by
      simp only [PGSIZE, USER_END] at hva
      omega
    have huser : UserVa va := .of_lt hlow
    obtain ⟨old, hold⟩ := Option.isSome_iff_exists.mp hmapped
    have hold' : leafPte t.mem (lay'.root i) va = some old := (hR.leaf hs hi hij hp huser).trans hold
    have hlive : t.Live j := by rwa [KState.Live, hR.task]
    have hlen := hall.length_le
    rw [List.length_append, List.length_singleton] at hlen
    rw [← hR.task]
    have hspec : Spec fresh (copyPage img (t.task j) va flags) t _ _ :=
      copyPage_spec hp (fun hf => hR.sparing.fresh (hfresh hf)) hr hlive hlow halign hold'
    refine (hspec.within (grows_copyPage ..)).mono ?_ ?_
    · rintro _ u ⟨⟨lay'', pte, hd⟩, hw⟩
      exact hR.copied hp hr.live hlive hij hr hpage hroot huser hold' hd hw
    · rintro e u ⟨⟨rfl, hfull⟩ | ⟨rfl, hread⟩, hw⟩
      · exact .full hfull (hR.within.trans hw (by omega))
      · exact .unreadable ((hs.userPte_va hi huser).trans hold) hread

/-- The pages of an area that are mapped. -/
def mappedPages (lay : Layout) (s : KState) (i p : Nat) : List Nat :=
  (s.vma p).pages.filter fun va => (leafPte s.mem (lay.root i) va).isSome

theorem length_mappedPages_le (l : List Nat) : (l.flatMap (mappedPages lay s i)).length ≤ looked s.vma l := by
  induction l with
  | nil => exact le_rfl
  | cons p l ih =>
      have hle : (mappedPages lay s i p).length ≤ (s.vma p).pages.length := List.length_filter_le ..
      simp only [looked, List.flatMap_cons, List.length_append] at *
      omega

theorem flatMap_mappedPages : l.flatMap (mappedPages lay s i) = visits s.vma s.mem (lay.root i) l := (visits_flatMap ..).symm

/-- The list loop visits the mapped pages of the areas. -/
theorem DupRun.areaRule (hs : Paging img lay s) (hfresh : fresh → Fresh img s) (hi : s.Live i) (hj : s.Live j) (hij : i ≠ j)
    (hc : lay.page j = c) (hl : AreaList img s (mmapOf lay s i) l) :
    AreaRule fresh (fun area => do
      let _ ← doMmap img (framePtr c + TASK_MM) area.vm_start ((area.vm_end + (2 ^ 64 - area.vm_start)) % 2 ^ 64)
        area.vm_pgoff area.vm_filesz area.vm_flags
      forValidPages img (fun va => copyPage img (framePtr c) va area.vm_flags) (2 ^ 52) (PGROUNDDOWN area.vm_start) area.vm_end)
      (fun p => (s.vma p).vm_next) (fun p => [p])
      (fun t done => DupRun img lay s i j done.length l t (done.flatMap (mappedPages lay s i)))
      (CopyHalts img s i (l.length + 3 * looked s.vma l)) l l := by
  have hram : img.Ram c := hc ▸ hs.page_ram hj
  have hptr : framePtr c = s.task j := by rw [(hs.task_ok hj).ptr, hc]
  refine ⟨⟨_, fun a => grows_add (grows_doMmap ..) (fun _ => grows_forValidPages (fun _ => grows_copyPage ..) ..) le_rfl⟩,
    fun t done p ht hp => ?_, fun t done p ht hp hall => ?_⟩
  · obtain ⟨b, hb⟩ := ht.areas p hp
    rw [hb]
  have hlen := hall.length_le
  rw [List.length_append, List.length_singleton] at hlen
  have hvisited : (done.flatMap (mappedPages lay s i)).length + (mappedPages lay s i p).length ≤ looked s.vma l := by
    obtain ⟨rest, rfl⟩ := hall
    have hle : ((done ++ [p] ++ rest).flatMap (mappedPages lay s i)).length ≤ looked s.vma (done ++ [p] ++ rest) :=
      length_mappedPages_le _
    simp only [List.flatMap_append, List.flatMap_singleton, List.length_append] at hle
    omega
  obtain ⟨lay', hpaging, -⟩ := ht.paging
  obtain ⟨b, hb⟩ := ht.areas p hp
  have hend := hl.below p hp
  rw [hb, List.length_append, List.length_singleton, List.flatMap_append, List.flatMap_singleton]
  dsimp only
  have hmmap : Spec fresh (doMmap img (framePtr c + TASK_MM) (s.vma p).vm_start
      (((s.vma p).vm_end + (2 ^ 64 - (s.vma p).vm_start)) % 2 ^ 64) (s.vma p).vm_pgoff (s.vma p).vm_filesz
      (s.vma p).vm_flags) t _ _ := .of_ends (doMmap_spec hpaging.pages hram)
  refine Spec.bind (k := 3 * 2 ^ 52) ((hmmap.within (grows_doMmap ..)).mono (fun _ _ h => h) ?_)
    (fun _ => grows_forValidPages (fun _ => grows_copyPage ..) ..) ?_
  · rintro _ _ ⟨⟨rfl, rfl, hfull⟩, hw⟩
    exact .full hfull (ht.within.trans hw (by omega))
  rintro _ u ⟨⟨-, g, hm⟩, hw⟩
  have hu := ht.mmapped hl.node hm hw hj hc
  rw [hptr]
  have hN : done.length + 1 + 3 * (done.flatMap (mappedPages lay s i) ++ mappedPages lay s i p).length ≤
      l.length + 3 * looked s.vma l := by
    rw [List.length_append]
    omega
  refine (DupRun.pageRule hs hfresh hi hj hij (s.vma p).vm_flags _ hN).spec hu ?_ hend ?_ List.prefix_rfl
  · simp only [PGROUNDDOWN, PGSIZE]
    omega
  · simp only [rounds, PGSIZE, USER_END] at *
    omega

end Loops

section Fork
variable {img : Image} {lay : Layout} {s t t' : KState} {i regs : Nat} {l : List Nat} {n n' : Int} {fresh : Prop}

/-- The child has every mapped page of the parent's areas, each in a frame of its own that was free, and nobody else's pages
have changed. -/
structure DeeplyForked (s t : KState) (i j : Nat) (l : List Nat) : Prop where
  empty : s.task j = 0
  live : t.Live j
  pages : ∀ x, t.pages x = if x.1 = j ∧ x.2 ∈ areaPages s.vma l then s.pages (i, x.2) else s.pages x
  others : ∀ x, x.1 ≠ j → t.userPte x = s.userPte x
  own : ∀ n pte, t.userPte (j, n) = some pte → s.ref (pteFrame pte) = 0
  apart : t.Apart j

/-- `do_fork` returns unless a frame is missing or the parent must not read one of its pages. -/
theorem doFork_spec (h : Paging img lay s) (hfresh : fresh → Fresh img s) (hr : Running lay s i) (hidle : s.task 0 ≠ 0)
    (hl : AreaList img s (mmapOf lay s i) l) (hregs : regs < 2 ^ 64) (hframe : InFrame regs) :
    Spec fresh (doFork img regs) s
      (fun n t => (n = -1 ∧ ∀ j, j < NR_TASKS → s.task j ≠ 0) ∨ ∃ j : Nat, n = j ∧ DeeplyForked s t i j l ∧ Sparing img s t)
      fun e t => regs ≠ framePtr (lay.page i) + regs % 4096 ∨ CopyHalts img s i (2 + l.length + 3 * looked s.vma l) e t := by
  rw [doFork]
  refine ends_bind.mpr (((forkChild_spec h hr hidle hregs hframe).and ((grows_forkChild regs).run s)).mono ?_ ?_)
  rotate_left
  · rintro e t ⟨⟨rfl, hfull⟩ | hno, hw⟩
    · exact fun _ => .inr (.full hfull (hw.mono (by omega)))
    · exact fun _ => .inl hno
  rintro o u ⟨⟨rfl, hfull, -⟩ | ⟨j, c, d, rfl, hs⟩, hw⟩
  · exact Spec.pure (.inl ⟨rfl, hfull⟩)
  have hij : i ≠ j := by
    rintro rfl
    exact hr.some hs.empty
  have hp := hs.paging h
  have hrun := hs.running hr
  have ok := h.task_ok hr.live
  have hrole := hs.role h (f := lay.page i) (by rw [ok.page]; exact Role.noConfusion)
  have hmm : ld 8 u.mem (lay.page i * 4096 + TASK_MM) = mmapOf lay s i := (hs.frame _ hrole.1 hrole.2.1).ld (by decide)
  have hpage : (lay.spawn j c d).page i = lay.page i := Function.update_of_ne hij ..
  have hlu : AreaList img u (mmapOf (lay.spawn j c d) u i) l := by
    rw [mmapOf, hpage, hmm]
    exact hl.mono hs.vma fun f hf hne => by rw [hs.ref f hf hne]; exact hne
  have hlive : u.Live i := hs.live.mpr (.inl hr.live)
  have hlivej : u.Live j := hs.live.mpr (.inr rfl)
  have hmap : u.userPte = s.userPte := hs.userPte h
  have hnone : ∀ n, u.userPte (j, n) = none := fun n => by
    rw [hmap]
    exact userPte_none fun hno => hno.1.2.2 hs.empty
  have hpages : u.pages = s.pages := hs.userPages h
  dsimp only
  refine ends_bind.mpr (ends_get.mpr ?_)
  rw [hs.current, hr.current, ok.ptr]
  refine ends_bind.mpr ((ends_loadWord (h.page_ram hr.live) (by decide)).mpr ?_)
  rw [hmm]
  have hchain : Chain (fun p => (u.vma p).vm_next) (mmapOf lay s i) l := by
    rw [hs.vma]
    exact hl.chain
  have hlen := hl.length_le
  have hlook : looked u.vma l = looked s.vma l := by rw [hs.vma]
  have hrule := DupRun.areaRule hp (fun hf => hs.sparing.fresh (hfresh hf)) hlive hlivej hij (c := c) (Function.update_self ..) hlu
  rw [hlook] at hrule
  have hnil : DupRun img (lay.spawn j c d) u i j ([] : List Nat).length l u
      (([] : List Nat).flatMap (mappedPages (lay.spawn j c d) u i)) := .nil hp hrun hnone
  refine Spec.bind (k := 0) ((hrule.spec (fun _ hq => hq) hnil hchain (by omega) ?_).mono (fun _ _ h => h)
    fun e v he => .inr (he.trans hw (by omega) hmap)) (fun _ => grows_pure _) fun _ v hv => Spec.pure (.inr ⟨j, rfl, ?_⟩)
  · rw [List.nil_append, List.flatMap_singleton']
  rw [List.nil_append, List.flatMap_singleton', flatMap_mappedPages] at hv
  refine ⟨?_, hs.sparing.trans hv.sparing⟩
  constructor
  case empty => exact hs.empty
  case live => rwa [KState.Live, hv.task]
  case pages =>
    intro x
    have hcopied := hlu.copied hp hlive (j := j) (m := v.pages) (fun n => by rw [hpages]; exact pages_dead hs.empty n) hv.pages x
    rw [hpages, hs.vma] at hcopied
    exact hcopied
  case others =>
    intro x hx
    rw [hv.others x hx, hmap]
  case own =>
    intro n pte hpte
    by_contra hne
    obtain ⟨lay', hpaging, -⟩ := hv.paging
    have hram := (hpaging.userPte_held hpte).1
    have hfree := hv.own n pte hpte
    rw [hs.ref _ hram hne] at hfree
    exact hne hfree
  case apart => exact hv.apart

/-- The number that a fork returns when no page is missing. -/
def forkNumber (task : Nat → Nat) : Int := (freeSlot task).elim (-1) fun j => j

theorem forkNumber_some {task : Nat → Nat} {j : Nat} (h : Int.ofNat j = forkNumber task) : freeSlot task = some j := by
  rw [forkNumber] at h
  cases hslot : freeSlot task with
  | none =>
      rw [hslot] at h
      cases h
  | some k =>
      rw [hslot] at h
      exact congrArg some (Int.ofNat.inj h).symm

theorem forkNumber_none {task : Nat → Nat} (h : -1 = forkNumber task) : freeSlot task = none := by
  rw [forkNumber] at h
  cases hslot : freeSlot task with
  | none => rfl
  | some k =>
      rw [hslot, Option.elim_some] at h
      omega

theorem blind_task (task : Nat → Nat) : Blind fun s => s.task = task :=
  blind_of (fun _ _ h => h) (fun _ _ h => h) fun _ _ h => h

/-- A computation that keeps `task[]`, and one that depends on `task[]` only. -/
theorem ends_keeps {α β : Type} {x : K α} {f : α → K β} {Q : β → KState → Prop} (hx : Keeps (fun t => t.task = s.task) x)
    (ht : t.task = s.task) (hf : ∀ a t, t.task = s.task → Ends (f a) t Q fun _ _ => True) : Ends (x >>= f) t Q fun _ _ => True :=
  ends_bind.mpr ((hx.run t ht).mono hf fun _ _ _ => trivial)

theorem takeSlot_number {child : Nat} : Ends (takeSlot child) s (fun o _ => o = freeSlot s.task) fun _ _ => True := by
  rw [takeSlot, ends_bind, ends_get]
  cases hslot : freeSlot s.task with
  | none => exact ends_pure.mpr rfl
  | some j => exact ends_bind.mpr (ends_modify.mpr (ends_pure.mpr rfl))

theorem forkChild_number : Ends (forkChild img regs) s (fun o _ => o.map Prod.snd = freeSlot s.task) fun _ _ => True := by
  have hP := blind_task s.task
  rw [forkChild]
  refine ends_keeps hP.allocPage rfl fun child t ht => ?_
  refine ends_keeps (keeps_notNull _) ht fun _ t ht => ?_
  refine ends_keeps keeps_get ht fun _ t ht => ?_
  refine ends_keeps (hP.memcpy ..) ht fun _ t ht => ?_
  refine ends_bind.mpr (takeSlot_number.mono ?_ fun _ _ _ => trivial)
  rintro o u rfl
  rw [ht]
  cases freeSlot s.task with
  | none => exact ends_pure.mpr rfl
  | some j =>
      dsimp only
      iterate 14 refine ends_then fun _ _ => ?_
      exact ends_pure.mpr rfl

theorem cowChild_number : Ends (cowChild img regs) s (fun o _ => o.map Prod.snd = freeSlot s.task) fun _ _ => True := by
  have hP := blind_task s.task
  rw [cowChild]
  refine ends_keeps hP.allocPage rfl fun child t ht => ?_
  refine ends_keeps (keeps_notNull _) ht fun _ t ht => ?_
  refine ends_keeps (hP.memset ..) ht fun _ t ht => ?_
  refine ends_keeps keeps_get ht fun _ t ht => ?_
  refine ends_keeps (hP.memcpy ..) ht fun _ t ht => ?_
  refine ends_bind.mpr (takeSlot_number.mono ?_ fun _ _ _ => trivial)
  rintro o u rfl
  rw [ht]
  cases freeSlot s.task with
  | none => exact ends_pure.mpr rfl
  | some j =>
      dsimp only
      iterate 13 refine ends_then fun _ _ => ?_
      exact ends_pure.mpr rfl

theorem doFork_number : Ends (doFork img regs) s (fun n _ => n = forkNumber s.task) fun _ _ => True := by
  rw [doFork]
  refine ends_bind.mpr (forkChild_number.mono ?_ fun _ _ _ => trivial)
  rintro o u ho
  rw [forkNumber, ← ho]
  obtain - | ⟨child, j⟩ := o
  · exact ends_pure.mpr rfl
  · dsimp only
    iterate 3 refine ends_then fun _ _ => ?_
    exact ends_pure.mpr rfl

theorem doCowFork_number : Ends (doCowFork img regs) s (fun n _ => n = forkNumber s.task) fun _ _ => True := by
  rw [doCowFork]
  refine ends_bind.mpr (cowChild_number.mono ?_ fun _ _ _ => trivial)
  rintro o u ho
  rw [forkNumber, ← ho]
  obtain - | ⟨child, j⟩ := o
  · exact ends_pure.mpr rfl
  · dsimp only
    iterate 4 refine ends_then fun _ _ => ?_
    exact ends_pure.mpr rfl

theorem grows_doFork (regs : Nat) : Grows (2 + (1 + 3 * 2 ^ 52) * 2 ^ 64) (doFork img regs) := by
  refine grows_add (grows_forkChild regs) (fun o => ?_) le_rfl
  cases o with
  | none => exact grows_pure _
  | some x =>
      exact grows_bind grows_get fun _ => grows_bind (grows_loadWord _) fun _ =>
        grows_last (grows_forAreas (fun _ => grows_add (grows_doMmap ..)
          (fun _ => grows_forValidPages (fun _ => grows_copyPage ..) ..) le_rfl) ..) fun _ => grows_pure _

/-- `do_fork` returns when there are frames for what it copies. -/
theorem Roomy.eagerFork {k : Nat} (h : Roomy img lay s k) (hi : s.Runs i) (hl : AreaList img s (mmapOf lay s i) l)
    (hregs : regs < 2 ^ 64) (hframe : InFrame regs) (hown : regs = framePtr (lay.page i) + regs % 4096)
    (hread : ∀ n pte, s.userPte (i, n) = some pte → pte.testBit PTE_R = true) (hslot : ∃ j, j < NR_TASKS ∧ s.task j = 0)
    (hk : 2 + l.length + 3 * looked s.vma l ≤ k) :
    ∃ (j : Nat) (t : KState), (doFork img regs).run s = .ok j t ∧ DeeplyForked s t i j l ∧ TablesClean t.trace := by
  have hspec : Spec True (doFork img regs) s _ _ :=
    doFork_spec h.inv.paging (fun _ => h.fresh) (h.inv.running hi) h.inv.idle_ne hl hregs hframe
  cases hrun : (doFork img regs).run s with
  | error e t =>
      rcases hspec.of_error hrun (.inl trivial) with hno | hhalts
      · exact absurd hown hno
      cases hhalts with
      | full hfull hw => exact absurd hfull (h.not_full hw hk)
      | unreadable hpte hr =>
          rw [hread _ _ hpte] at hr
          cases hr
  | ok n t =>
      rcases hspec.of_ok hrun (.inl trivial) with ⟨-, hfull⟩ | ⟨j, rfl, hd, hsparing⟩
      · obtain ⟨j, hj, hzero⟩ := hslot
        exact absurd hzero (hfull j hj)
      · exact ⟨j, t, rfl, hd, hsparing.clean h.fresh h.clean⟩

/-- Task 1 has a page and forks on the board. -/
theorem board_duplicated : ∃ lay s l regs, ∃ (j : Nat) (t : KState), OnBoard lay s 14 s.userPte ∧
    AreaList board s (mmapOf lay s 1) l ∧ looked s.vma l = 3 ∧ regs < 2 ^ 64 ∧ InFrame regs ∧
    (doFork board regs).run s = .ok j t ∧ TablesClean t.trace ∧ (t.pages (j, 1)).isSome := by
  obtain ⟨lay, s, g, h, -, -, hempty⟩ := board_demanded (n := 14) (by decide)
  have hslot : s.userPte (1, 1) = some (2 ^ 10 * g + 0x17) := by rw [h.mapped, Function.update_self]
  obtain ⟨l, p, hl, hareas, -, -, hpages⟩ := h.area
  have hlook : looked s.vma l = 3 := by rw [looked, hpages]; rfl
  have hlen : l.length = 3 := hareas.length_eq.symm
  obtain ⟨hregs, hframe⟩ := topFrame (h.room.inv.paging.page_ram h.runs.1)
  have hown : framePtr (lay.page 1) + 0xee0 = framePtr (lay.page 1) + (framePtr (lay.page 1) + 0xee0) % 4096 := by
    simp only [framePtr, PGSIZE, PA2VA_OFFSET]
    omega
  have hread : ∀ n pte, s.userPte (1, n) = some pte → pte.testBit PTE_R = true := fun n pte hpte => by
    rw [h.mapped] at hpte
    by_cases hn : ((1, n) : Nat × Nat) = (1, 1)
    · rw [hn, Function.update_self] at hpte
      obtain rfl := Option.some.inj hpte
      rw [Nat.testBit_two_pow_mul_add _ (by decide), if_pos (by decide)]
      decide
    · rw [Function.update_of_ne hn] at hpte
      cases hpte
  obtain ⟨j, t, hrun, hd, hclean⟩ := h.room.eagerFork h.runs hl hregs hframe hown hread ⟨2, by decide, hempty⟩
    (by rw [hlook, hlen])
  refine ⟨lay, s, l, _, j, t, h.mapped ▸ h, hl, hlook, hregs, hframe, hrun, hclean, ?_⟩
  have hpage : (1 : Nat) ∈ areaPages s.vma l := by
    rw [areaPages, hpages]
    decide
  rw [hd.pages, if_pos ⟨rfl, hpage⟩, KState.pages_some hslot]
  rfl

/-- `do_fork` copies the pages of the parent's areas into frames that were free, and changes no other task's. -/
theorem fork_copies (h : Reachable img (fun _ _ => True) s) (hi : s.Runs i) (hregs : regs < 2 ^ 64) (hframe : InFrame regs)
    (hrun : (doFork img regs).run s = .ok n t) (hclean : TablesClean t.trace) :
    (freeSlot s.task = none ∧ n = -1) ∨ ∃ j, freeSlot s.task = some j ∧ n = Int.ofNat j ∧
      ∃ l, Chain (fun p => (s.vma p).vm_next) (s.mmap i) l ∧ DeeplyForked s t i j l := by
  have hclean₀ := hclean.suffix (((grows_doFork regs).run s).of_ok hrun).trace
  obtain ⟨lay, hinv⟩ := h.inv hclean₀
  obtain ⟨l, hl⟩ := hinv.areas i hi.1
  rw [← hinv.paging.mmap_eq hi.1] at hl
  have hnumber := doFork_number.of_ok hrun
  have hspec := doFork_spec hinv.paging False.elim (hinv.running hi) hinv.idle_ne hl hregs hframe
  rcases hspec.of_ok hrun (.inr hclean) with ⟨rfl, hfull⟩ | ⟨j, rfl, hd, -⟩
  · exact .inl ⟨freeSlot_eq_none hfull, rfl⟩
  refine .inr ⟨j, forkNumber_some hnumber, rfl, l, ?_, hd⟩
  rw [← hinv.paging.mmap_eq hi.1]
  exact hl.chain

/-- A fork of a task with a page on the board. -/
theorem fork_copies_board : ∃ s t l regs, ∃ j : Nat, Reachable board (fun _ _ => True) s ∧
    (doFork board regs).run s = .ok (Int.ofNat j) t ∧ DeeplyForked s t 1 j l ∧ (t.pages (j, 1)).isSome := by
  obtain ⟨lay, s, -, regs, j, t, h, -, -, hregs, hframe, hrun, hclean, hsome⟩ := board_duplicated
  rcases fork_copies h.reach h.runs hregs hframe hrun hclean with ⟨-, hno⟩ | ⟨j', -, hj, l, -, hd⟩
  · cases hno
  · obtain rfl : j = j' := Int.ofNat.inj hj
    exact ⟨s, t, l, regs, j, h.reach, hrun, hd, hsome⟩

/-- The two forks give the same number, and every task the same memory. -/
theorem forks_agree (h : Reachable img (fun _ _ => True) s) (hi : s.Runs i) (hregs : regs < 2 ^ 64) (hframe : InFrame regs)
    (hrun : (doFork img regs).run s = .ok n t) (hclean : TablesClean t.trace)
    (hrun' : (doCowFork img regs).run s = .ok n' t') (hclean' : TablesClean t'.trace) :
    n = n' ∧ (n ≠ -1 → t.pages = t'.pages) := by
  have hclean₀ := hclean'.suffix (((grows_doCowFork regs).run s).of_ok hrun').trace
  obtain ⟨lay, hinv⟩ := h.inv hclean₀
  obtain ⟨l, hl⟩ := hinv.areas i hi.1
  rw [← hinv.paging.mmap_eq hi.1] at hl
  have hsame : n = n' := (doFork_number.of_ok hrun).trans (doCowFork_number.of_ok hrun').symm
  refine ⟨hsame, fun hn => ?_⟩
  have hspec := doFork_spec hinv.paging False.elim (hinv.running hi) hinv.idle_ne hl hregs hframe
  rcases hspec.of_ok hrun (.inr hclean) with ⟨rfl, -⟩ | ⟨j, rfl, hd, -⟩
  · exact absurd rfl hn
  have hcow : Spec False (doCowFork img regs) s _ fun _ _ => True :=
    doCowFork_forged hinv.paging False.elim (hinv.running hi) hinv.idle_ne hl hregs hframe (hinv.count_lt hl)
  rcases hcow.of_ok hrun' (.inr hclean') with rfl | ⟨j', c, d, u, lay', v, rfl, hs, -, -, hsh, rfl⟩
  · exact absurd hsame hn
  obtain rfl : j = j' := Int.ofNat.inj hsame
  funext x
  rw [hd.pages]
  exact (hsh.forked hinv.paging hi hl hs x).symm

/-- Both forks of a task with a page on the board. -/
theorem forks_agree_board : ∃ s t t' regs, ∃ j : Nat, Reachable board (fun _ _ => True) s ∧
    (doFork board regs).run s = .ok (Int.ofNat j) t ∧ (doCowFork board regs).run s = .ok (Int.ofNat j) t' ∧
    t.pages = t'.pages ∧ (t'.pages (j, 1)).isSome := by
  obtain ⟨lay, s, l, regs, j, t, h, hl, hlook, hregs, hframe, hrun, hclean, hsome⟩ := board_duplicated
  obtain ⟨n, lay', t', hrun', -, hroom⟩ := h.room.fork h.runs hl hregs hframe (by rw [hlook]; decide)
  obtain ⟨rfl, hpages⟩ := forks_agree h.reach h.runs hregs hframe hrun hclean hrun' hroom.clean
  have hsame := hpages Int.noConfusion
  exact ⟨s, t, t', regs, j, h.reach, hrun, hrun', hsame, hsame ▸ hsome⟩

end Fork

end ZjuOs
