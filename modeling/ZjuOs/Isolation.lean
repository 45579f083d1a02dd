import ZjuOs.Accounting
import ZjuOs.PrivateMemory

/-!
The user pages of every task as a memory of its own. Faults, context switches and stores of the kernel are not
visible in it, a fork is a copy of the parent's pages, and a task changes its own pages only.
-/
namespace ZjuOs
open Memory Exec Sharing

/-- The contents of a page. -/
abbrev Page : Type := Fin PGSIZE → UInt8

def pageBytes (m : Mem) (f : Nat) : Page := fun o => m (f * PGSIZE + o)

/-- The place of an address in its page. -/
def offsetOf (va : Nat) : Fin PGSIZE := ⟨va % PGSIZE, Nat.mod_lt _ (by decide)⟩

/-- The user pages that are mapped, by task and number of the page. -/
def KState.pages (s : KState) : Memories Nat Nat Page := seen pteView s.userPte (pageBytes s.mem)

instance (s : KState) (i : Nat) : Decidable (s.Runs i) := inferInstanceAs (Decidable (_ ∧ _))

section Pages
variable {img : Image} {lay lay' : Layout} {s t : KState} {i j va pte f : Nat} {drop : Option Nat} {m m' : Mem} {c : UInt8}

theorem pageBytes_congr (h : SameFrame m m' f) : pageBytes m f = pageBytes m' f := by
  ext o
  rw [pageBytes, pageBytes, h o o.isLt]

theorem pageBytes_update : pageBytes (Function.update m (f * PGSIZE + va % PGSIZE) c) =
    Function.update (pageBytes m) f (Function.update (pageBytes m f) (offsetOf va) c) := by
  have hva : va % PGSIZE < PGSIZE := Nat.mod_lt _ (by decide)
  ext g o
  have ho : (o : Nat) < PGSIZE := o.isLt
  simp only [PGSIZE] at hva ho
  by_cases hg : g = f
  · subst hg
    rw [Function.update_self]
    by_cases hoff : o = offsetOf va
    · rw [hoff, Function.update_self, pageBytes, offsetOf, Function.update_self]
    · rw [Function.update_of_ne hoff, pageBytes, pageBytes, Function.update_of_ne]
      intro he
      apply hoff
      apply Fin.ext
      change (o : Nat) = va % PGSIZE
      simp only [PGSIZE] at *
      omega
  · rw [Function.update_of_ne hg, pageBytes, pageBytes, Function.update_of_ne]
    simp only [PGSIZE]
    omega

theorem KState.pages_some {x : Nat × Nat} (h : s.userPte x = some pte) :
    s.pages x = some (pageBytes s.mem (pteFrame pte)) := seen_some h

theorem KState.pages_none {x : Nat × Nat} : s.pages x = none ↔ s.userPte x = none := seen_none

/-- No mapping has changed, and no byte of a frame that is mapped. -/
theorem Paging.pages_congr (h : Paging img lay s) (hmap : t.userPte = s.userPte)
    (hdata : ∀ f, lay.role f = .data → SameFrame t.mem s.mem f) : t.pages = s.pages := by
  funext x
  rw [KState.pages, hmap]
  exact seen_data fun e he => pageBytes_congr (hdata _ (h.userPte_role he))

theorem Role.not_table (h : lay.role f = .data) : ∀ r p, lay.role f ≠ .table r p := fun r p hp => by
  rw [h] at hp
  cases hp

theorem Calm.pages (h : Paging img lay s) (hc : Calm img lay lay' s t none) : t.pages = s.pages :=
  h.pages_congr (hc.userPte h) fun f hf =>
    hc.frame f (Role.not_table hf) (h.held f (by rw [hf]; exact Role.noConfusion)).2.2

theorem Spawned.userPages {d w k : Nat} (h : Paging img lay s) (hs : Spawned img s t j d k w) : t.pages = s.pages :=
  h.pages_congr (hs.userPte h) fun f hf => by
    obtain ⟨hd, hk, -⟩ := hs.role h (f := f) (by rw [hf]; exact Role.noConfusion)
    exact hs.frame f hd hk

theorem Remapped.pages (h : Paging img lay s) (hi : s.Live i) (hva : UserVa va)
    (hm : Remapped img lay lay' s t (lay.root i) va pte drop) :
    t.pages = Function.update s.pages (slotOf i va) (some (pageBytes t.mem (pteFrame pte))) := by
  have hmap : t.userPte = Function.update s.userPte (slotOf i va) (some pte) := hm.userPte h hi hva
  funext x
  by_cases hx : x = slotOf i va
  · rw [hx, Function.update_self]
    exact KState.pages_some (by rw [hmap, Function.update_self])
  · rw [Function.update_of_ne hx, KState.pages, hmap]
    refine (seen_congr (by rw [Function.update_of_ne hx])).trans (seen_data fun e he => ?_)
    have hrole := h.userPte_role he
    exact pageBytes_congr (hm.frame _ (Role.not_table hrole) (h.userPte_held he).2)

/-- A fault maps a page that was not mapped, or changes nothing that the task sees. -/
theorem Resolved.pages {area : VmArea} {scause : Nat} (h : Paging img lay s) (hi : s.Live i) (hva : UserVa va)
    (hr : Resolved img lay s (lay.root i) va area scause lay' t) :
    (s.pages (slotOf i va) ≠ none ∧ t.pages = s.pages) ∨
      ∃ d, s.pages (slotOf i va) = none ∧ t.pages = Function.update s.pages (slotOf i va) (some d) := by
  have hslot : s.userPte (slotOf i va) = leafPte s.mem (lay.root i) va := h.userPte_va hi hva
  -- the page keeps its contents
  have hkept : ∀ {old new : Nat} {drop : Option Nat}, leafPte s.mem (lay.root i) va = some old →
      Remapped img lay lay' s t (lay.root i) va new drop →
      pageBytes t.mem (pteFrame new) = pageBytes s.mem (pteFrame old) →
      s.pages (slotOf i va) ≠ none ∧ t.pages = s.pages := by
    intro old new drop hold hm hsame
    have hpage := KState.pages_some (hslot.trans hold)
    refine ⟨by rw [hpage]; exact Option.some_ne_none _, ?_⟩
    rw [hm.pages h hi hva, hsame, ← hpage, Function.update_eq_self]
  cases hr with
  | demand g hnone _ _ _ _ hm _ _ => exact .inr ⟨_, KState.pages_none.mpr (hslot.trans hnone), hm.pages h hi hva⟩
  | own old g hold _ _ _ _ hm _ =>
      refine .inl (hkept hold hm ?_)
      have hrole := h.userPte_role (hslot.trans hold)
      rw [pteFrame_setW]
      exact pageBytes_congr (hm.frame _ (Role.not_table hrole) (h.userPte_held (hslot.trans hold)).2)
  | copy old g g₁ hold _ _ _ _ _ _ _ _ _ hm _ _ hcopy _ =>
      refine .inl (hkept hold hm ?_)
      rw [pteFrame_mk (copyPerm_lt.trans (by decide))]
      funext o
      exact hcopy o o.isLt

theorem Shared.pages (h : Paging img lay s) (hi : s.Live i) (hj : s.Live j) (hva : UserVa va)
    (hm : Shared img lay lay' s t (lay.root i) (lay.root j) va pte) :
    t.pages = Function.update s.pages (slotOf j va) (s.pages (slotOf i va)) := by
  have hmap : t.userPte = Function.update (Function.update s.userPte (slotOf i va) (some (clearW pte)))
      (slotOf j va) (some (clearW pte)) := hm.userPte h hi hj hva
  have hold : s.userPte (slotOf i va) = some pte := (h.userPte_va hi hva).trans hm.old
  obtain ⟨l, -, -, he, -, hdata, -⟩ := h.of_leafPte (h.task_ok hi).root hva hm.old
  have hlt : pte < 2 ^ 64 := by
    rw [← he]
    exact tables_lt ..
  -- no frame that is mapped has become a table
  have hsame : ∀ f, lay.role f = .data → pageBytes t.mem f = pageBytes s.mem f := by
    intro f hf
    have hrole := hm.role f (by rw [hf]; exact Role.noConfusion)
    exact pageBytes_congr (hm.frame f (Role.not_table (hrole.trans hf)))
  have hframe : pageBytes t.mem (pteFrame (clearW pte)) = pageBytes s.mem (pteFrame pte) := by
    rw [pteFrame_clearW hlt, hsame _ hdata]
  have hpage : s.pages (slotOf i va) = some (pageBytes s.mem (pteFrame pte)) := KState.pages_some hold
  funext x
  by_cases hxj : x = slotOf j va
  · rw [hxj, Function.update_self, hpage, ← hframe]
    exact KState.pages_some (by rw [hmap, Function.update_self])
  · rw [Function.update_of_ne hxj]
    by_cases hxi : x = slotOf i va
    · rw [hxi, hpage, ← hframe]
      exact KState.pages_some (by rw [hmap, ← hxi, Function.update_of_ne hxj, hxi, Function.update_self])
    · rw [KState.pages, hmap]
      refine (seen_congr (by rw [Function.update_of_ne hxj, Function.update_of_ne hxi])).trans ?_
      exact seen_data fun e he => hsame _ (h.userPte_role he)

/-- The child's pages are the parent's. -/
theorem Shares.pages {r d : Nat} {vs : List Nat} (h : Paging img lay s) (hi : s.Live i) (hj : s.Live j) (hij : i ≠ j)
    (hr : lay.root i = r) (hd : lay.root j = d) (hs : Shares img r d lay s vs lay' t) (huser : ∀ va ∈ vs, UserVa va)
    (x : Nat × Nat) : t.pages x = if x.1 = j ∧ x.2 ∈ vs.map pageOf then s.pages (i, x.2) else s.pages x := by
  subst hr hd
  induction hs generalizing x with
  | nil => exact (if_neg fun hno => List.not_mem_nil hno.2).symm
  | @snoc vs lay' lay'' t u va pte hs hshare ih =>
      have hbefore := ih fun v hv => huser v (List.mem_append_left _ hv)
      have hk := hs.kept h (h.task_ok hi).root
      have hva := huser va (List.mem_append_right _ List.mem_cons_self)
      rw [← hk.root] at hshare
      rw [hshare.pages hk.paging (hk.tasks.live.mpr hi) (hk.tasks.live.mpr hj) hva]
      have hmem : ∀ n, n ∈ (vs ++ [va]).map pageOf ↔ n ∈ vs.map pageOf ∨ n = pageOf va := fun n => by
        rw [List.map_append, List.map_singleton, List.mem_append, List.mem_singleton]
      have hparent : t.pages (slotOf i va) = s.pages (slotOf i va) := by
        rw [hbefore]
        exact if_neg fun hno => hij hno.1
      by_cases hx : x = slotOf j va
      · rw [hx, Function.update_self, hparent, if_pos ⟨rfl, (hmem _).mpr (.inr rfl)⟩]
      · rw [Function.update_of_ne hx, hbefore]
        refine if_congr (and_congr_right fun h1 => ?_) rfl rfl
        rw [hmem]
        exact ⟨.inl, fun h2 => h2.resolve_right fun h3 => hx (Prod.ext h1 h3)⟩

end Pages

/-- The numbers of the pages of a list of areas. -/
def areaPages (vma : Nat → VmArea) (l : List Nat) : List Nat := (l.flatMap fun p => (vma p).pages).map pageOf

/-- What an action in `s` is in the memories of the tasks. -/
inductive Seems (s : KState) : Act → Effect Nat Nat Page → Prop
  | switch {j : Nat} : Seems s (.switch j) .keep
  | kernel : Seems s .kernel .keep
  | store {i va : Nat} {c : UInt8} : s.Runs i →
      Seems s (.store va c) (.write i (pageOf va) fun d => Function.update d (offsetOf va) c)
  | demand {i : Nat} {regs : PtRegs} {d : Page} : s.Runs i → Seems s (.fault regs) (.enter i (pageOf regs.stval) d)
  | write {i : Nat} {regs : PtRegs} : s.Runs i → s.pages (i, pageOf regs.stval) ≠ none → Seems s (.fault regs) .keep
  | refused {regs : Nat} : (∀ j, j < NR_TASKS → s.task j ≠ 0) → Seems s (.fork regs) .keep
  | fork {i j regs : Nat} {l : List Nat} : s.Runs i → 1 ≤ j → j < NR_TASKS → s.task j = 0 →
      Chain (fun p => (s.vma p).vm_next) (s.mmap i) l → Seems s (.fork regs) (.clone i j (areaPages s.vma l))

section Steps
variable {img : Image} {lay lay' : Layout} {s t : KState} {i j va pte pa : Nat} {a : Act} {x : Nat × Nat}

theorem Running.runs (hr : Running lay s i) : s.Runs i := ⟨hr.live, hr.current⟩

/-- The pages that are visited are the mapped pages of the areas. -/
theorem AreaList.pages_visited (h : Paging img lay s) (hi : s.Live i) {head n : Nat} {l : List Nat} (hl : AreaList img s head l)
    (hn : n ∈ areaPages s.vma l) (hno : n ∉ (visits s.vma s.mem (lay.root i) l).map pageOf) : s.pages (i, n) = none := by
  obtain ⟨va, hva, rfl⟩ := List.mem_map.mp hn
  obtain ⟨p, hp, hpage⟩ := List.mem_flatMap.mp hva
  have hend := hl.below p hp
  have hlt := (VmArea.mem_pages.mp hpage).2.2
  have huser : UserVa va := .of_lt (by rw [USER_END] at hend; omega)
  rw [KState.pages_none, show (i, pageOf va) = slotOf i va from rfl, h.userPte_va hi huser]
  by_contra hsome
  exact hno (List.mem_map_of_mem (mem_visits.mpr ⟨⟨p, hp, hpage⟩, Option.isSome_iff_ne_none.mpr hsome⟩))

/-- A copy of the pages that are visited is a copy of the pages of the areas. -/
theorem AreaList.copied {head : Nat} {l : List Nat} {m : Sharing.Memories Nat Nat Page} (h : Paging img lay s) (hi : s.Live i)
    (hl : AreaList img s head l) (hnew : ∀ n, s.pages (j, n) = none)
    (hm : ∀ x, m x = if x.1 = j ∧ x.2 ∈ (visits s.vma s.mem (lay.root i) l).map pageOf then s.pages (i, x.2) else s.pages x)
    (x : Nat × Nat) : m x = if x.1 = j ∧ x.2 ∈ areaPages s.vma l then s.pages (i, x.2) else s.pages x := by
  rw [hm]
  by_cases hx : x.1 = j ∧ x.2 ∈ areaPages s.vma l
  · rw [if_pos hx]
    by_cases hv : x.2 ∈ (visits s.vma s.mem (lay.root i) l).map pageOf
    · rw [if_pos ⟨hx.1, hv⟩]
    · rw [if_neg fun hno => hv hno.2, hl.pages_visited h hi hx.2 hv, ← Prod.mk.eta (p := x), hx.1, hnew]
  · rw [if_neg hx, if_neg]
    rintro ⟨hj, hv⟩
    obtain ⟨va, hva, hpage⟩ := List.mem_map.mp hv
    exact hx ⟨hj, List.mem_map.mpr ⟨va, List.mem_flatMap.mpr (mem_visits.mp hva).1, hpage⟩⟩

theorem pages_dead (h : s.task j = 0) (n : Nat) : s.pages (j, n) = none :=
  KState.pages_none.mpr (userPte_none fun hlive => hlive.1.2.2 h)

/-- The pages that are shared are those of the parent's areas. -/
theorem Shares.forked {l : List Nat} {c d w : Nat} {u v : KState} (h : Paging img lay s) (hi : s.Runs i)
    (hl : AreaList img s (mmapOf lay s i) l) (hs : Spawned img s u j c d w)
    (hsh : Shares img (lay.root i) d (lay.spawn j c d) u (visits s.vma s.mem (lay.root i) l) lay' v) (x : Nat × Nat) :
    v.pages x = if x.1 = j ∧ x.2 ∈ areaPages s.vma l then s.pages (i, x.2) else s.pages x := by
  have hij : i ≠ j := by
    rintro rfl
    exact hi.1.2.2 hs.empty
  have eri : (lay.spawn j c d).root i = lay.root i := Function.update_of_ne hij ..
  have erj : (lay.spawn j c d).root j = d := Function.update_self ..
  refine hl.copied h hi.1 (pages_dead hs.empty) (fun x => ?_) x
  rw [← hs.userPages h]
  exact hsh.pages (hs.paging h) (hs.live.mpr (.inl hi.1)) (hs.live.mpr (.inr rfl)) hij eri erj
    (fun va hva => .of_lt (hl.userVa_visits hva).2) x

/-- A fork copies the pages of the parent's areas. -/
theorem CowForked.pages {l : List Nat} {n : Int} (h : Paging img lay s) (hi : s.Runs i) (hl : AreaList img s (mmapOf lay s i) l)
    (hf : CowForked img lay s i l n lay' t) :
    ((∀ j, j < NR_TASKS → s.task j ≠ 0) ∧ t.pages = s.pages) ∨ ∃ j, 1 ≤ j ∧ j < NR_TASKS ∧ s.task j = 0 ∧
      ∀ x, t.pages x = if x.1 = j ∧ x.2 ∈ areaPages s.vma l then s.pages (i, x.2) else s.pages x := by
  cases hf with
  | full _ hfull _ hc => exact .inl ⟨hfull, hc.pages h⟩
  | child j c d u v _ hs hsh ht =>
      have hlog : t.pages = v.pages := by rw [ht]; rfl
      exact .inr ⟨j, hs.pos, hs.lt, hs.empty, fun x => by rw [hlog, hsh.forked h hi hl hs x]⟩

/-- What a step does in the memories of the tasks. -/
theorem Stepped.seems (h : RunInv img lay s) (hx : Exclusive pteView userSlots s.userPte s.ref)
    (hs : Stepped img lay s a lay' t) (h' : RunInv img lay' t) :
    ∃ e, Seems s a e ∧ e.Allowed s.pages ∧ t.pages = e.apply s.pages := by
  have hp := h.paging
  cases hs with
  | stay => exact ⟨.keep, .switch, trivial, rfl⟩
  | switch _ _ _ hmem hbuddy htask _ _ =>
      refine ⟨.keep, .switch, trivial, hp.pages_congr ?_ fun f _ => by rw [hmem]; exact .refl _ _⟩
      exact hp.userPte_congr h'.paging htask rfl fun r va _ _ => by rw [hmem]
  | @fault i p regs l _ _ hr hl hsel _ hres =>
      rcases hres.pages hp hr.live (hl.userVa hsel) with ⟨hsome, hsame⟩ | ⟨d, hnone, hnew⟩
      · exact ⟨.keep, .write hr.runs hsome, trivial, hsame⟩
      · exact ⟨.enter i (pageOf regs.stval) d, .demand hr.runs, hnone, hnew⟩
  | @fork i regs n l _ _ hr hl hf =>
      rcases hf.pages hp hr.runs hl with ⟨hfull, hsame⟩ | ⟨j, h1, hj, hempty, hnew⟩
      · exact ⟨.keep, .refused hfull, trivial, hsame⟩
      · have hchain := hl.chain
        rw [hp.mmap_eq hr.live] at hchain
        refine ⟨.clone i j (areaPages s.vma l), .fork hr.runs h1 hj hempty hchain, ⟨?_, fun n => ?_⟩, funext hnew⟩
        · rintro rfl
          exact hr.some hempty
        · exact pages_dead hempty n
  | @store i va pte c hr hva hpte hw hkeep =>
      have huser : UserVa va := .of_lt hva
      have hold : s.userPte (slotOf i va) = some pte := (hp.userPte_va hr.live huser).trans hpte
      have hmap := hp.userPte_congr h'.paging rfl rfl fun r va hroot huser => hp.leafPte_congr hkeep hroot huser
      refine ⟨_, .store hr.runs, ?_, ?_⟩
      · intro hnone
        rw [KState.pages_none.mp hnone] at hold
        cases hold
      · rw [KState.pages, hmap, KState.withMem_mem, pageBytes_update]
        refine hx.seen_write (f := fun d : Page => Function.update d (offsetOf va) c) (fun y d hd => ?_) hold hw
        obtain ⟨hlive, hn⟩ := userPte_some hd
        exact mem_userSlots.mpr ⟨hlive.2.1, hn⟩
  | kernel hkeep hdata _ =>
      refine ⟨.keep, .kernel, trivial, hp.pages_congr ?_ hdata⟩
      exact hp.userPte_congr h'.paging rfl rfl fun r va hroot huser => hp.leafPte_congr hkeep hroot huser

/-- A user load reads the page of the task. -/
theorem RunInv.reads (h : RunInv img lay s) (hi : s.Runs i) (hva : va < 2 ^ 38)
    (htr : translate s.mem (satpRoot s.satp) va = some (pte, pa)) :
    ∃ d, s.pages (slotOf i va) = some d ∧ s.mem pa = d (offsetOf va) := by
  have hroot := (h.paging.task_ok hi.1).root
  rw [h.satp i hi, h.paging.translate_user hroot hva] at htr
  obtain ⟨pte', hpte, hleaf⟩ := Option.bind_eq_some_iff.mp htr
  have hslot : s.userPte (slotOf i va) = some pte' := (h.paging.userPte_va hi.1 (.of_lt hva)).trans hpte
  refine ⟨_, KState.pages_some hslot, ?_⟩
  rw [hwLeaf] at hleaf
  split at hleaf
  · cases hleaf
  · cases hleaf
    rfl

end Steps

section Runs
variable {img : Image} {lay : Layout} {s t : KState} {l : List (KState × Act)} {x : Nat × Nat} {d : Page}

/-- Steps one after the other, each with the state that it starts in. -/
inductive Journal (img : Image) (s : KState) : List (KState × Act) → KState → Prop
  | nil : Journal img s [] s
  | snoc {l : List (KState × Act)} {t u : KState} {a : Act} : Journal img s l t → Step img t a u →
      Journal img s (l ++ [(t, a)]) u

/-- The byte that a step of task `x.1` stores in its page `x.2`. -/
def ownStore (x : Nat × Nat) : KState × Act → List (Fin PGSIZE × UInt8)
  | (s, .store va c) => if s.Runs x.1 ∧ pageOf va = x.2 then [(offsetOf va, c)] else []
  | _ => []

/-- Bytes stored in a page, in their order. -/
def stored (d : Page) (bytes : List (Fin PGSIZE × UInt8)) : Page := bytes.foldl (fun d b => Function.update d b.1 b.2) d

theorem stored_append (d : Page) (l l' : List (Fin PGSIZE × UInt8)) : stored d (l ++ l') = stored (stored d l) l' :=
  List.foldl_append

theorem Journal.reachable (h : Reachable img (fun _ _ => True) s) (hs : Journal img s l t) (hclean : TablesClean t.trace) :
    Reachable img (fun _ _ => True) t := by
  induction hs with
  | nil => exact h
  | snoc _ hstep ih => exact (ih (hclean.suffix hstep.trace_suffix)).step trivial hstep

theorem Started.exclusive {m : Mem} (h : Started img m lay s) : Exclusive pteView userSlots s.userPte s.ref := by
  constructor
  · intro x _ e he
    rw [h.unmapped_user] at he
    cases he
  · intro x _ y _ e e' he
    rw [h.unmapped_user] at he
    cases he

theorem Reachable.exclusive {ok : KState → Act → Prop} (h : Reachable img ok s) (hclean : TablesClean s.trace) :
    ∃ lay, RunInv img lay s ∧ Exclusive pteView userSlots s.userPte s.ref := by
  refine h.rule (P := fun _ s => Exclusive pteView userSlots s.userPte s.ref) hclean (fun m lay t hs _ => hs.exclusive) ?_
  intro lay t a lay' u hinv hp _ hs hinv'
  have hmoves : UserMoves False t u := hs.moves hinv hinv' False.elim
  exact Exclusive.moves hp hmoves

/-- The effect of an action on the memory of a task that waits. -/
theorem Seems.waits {a : Act} {e : Effect Nat Nat Page} {k : Nat} (he : Seems s a e) (hk : s.task k ≠ 0) (hwait : ¬ s.Runs k)
    (n : Nat) : e.apply s.pages (k, n) = s.pages (k, n) := by
  have hne : ∀ i m, s.Runs i → (k, n) ≠ (i, m) := fun i m hi hpair => hwait ((Prod.mk.inj hpair).1 ▸ hi)
  cases he with
  | switch => rfl
  | kernel => rfl
  | store hi => exact Function.update_of_ne (hne _ _ hi) ..
  | demand hi => exact Function.update_of_ne (hne _ _ hi) ..
  | write => rfl
  | refused => rfl
  | @fork i j regs l hi h1 hj hempty hchain =>
      refine if_neg fun hin => hk ?_
      rw [show k = j from hin.1]
      exact hempty

theorem Reachable.seems {a : Act} (h : Reachable img (fun _ _ => True) s) (hs : Step img s a t) (hclean : TablesClean t.trace) :
    ∃ e, Seems s a e ∧ t.pages = e.apply s.pages := by
  obtain ⟨lay, hinv, hx⟩ := h.exclusive (hclean.suffix hs.trace_suffix)
  obtain ⟨lay', hstepped, hinv'⟩ := hinv.step hs hclean
  obtain ⟨e, he, -, hpages⟩ := hstepped.seems hinv hx hinv'
  exact ⟨e, he, hpages⟩

/-- The bytes that a step stores in a page are the effect that it has on the page. -/
theorem Seems.writes {a : Act} {e : Effect Nat Nat Page} (h : Paging img lay s) (he : Seems s a e) :
    e.writes x d = stored d (ownStore x (s, a)) := by
  cases he with
  | @store i va c hi =>
      rw [Effect.writes, ownStore]
      by_cases hx : s.Runs x.1 ∧ pageOf va = x.2
      · have hsame : (i, pageOf va) = x := Prod.ext (h.runs_unique hi hx.1) hx.2
        rw [if_pos hx, if_pos hsame]
        rfl
      · have hne : (i, pageOf va) ≠ x := by
          rintro rfl
          exact hx ⟨hi, rfl⟩
        rw [if_neg hx, if_neg hne]
        rfl
  | switch => rfl
  | kernel => rfl
  | demand => rfl
  | write => rfl
  | refused => rfl
  | fork => rfl

theorem Journal.history (h : Reachable img (fun _ _ => True) s) (hs : Journal img s l t) (hclean : TablesClean t.trace) :
    ∃ es, List.Forall₂ (fun p e => Seems p.1 p.2 e ∧ ∀ x d, e.writes x d = stored d (ownStore x p)) l es ∧
      History s.pages es t.pages := by
  induction hs with
  | nil => exact ⟨[], .nil, .nil⟩
  | @snoc l t u a hs hstep ih =>
      have hclean' := hclean.suffix hstep.trace_suffix
      obtain ⟨es, hall, hist⟩ := ih hclean'
      obtain ⟨lay, hinv, hx⟩ := (hs.reachable h hclean').exclusive hclean'
      obtain ⟨lay', hstepped, hinv'⟩ := hinv.step hstep hclean
      obtain ⟨e, he, hallowed, hpages⟩ := hstepped.seems hinv hx hinv'
      refine ⟨es ++ [e], List.rel_append hall (.cons ⟨he, fun x d => he.writes hinv.paging⟩ .nil), ?_⟩
      rw [hpages]
      exact hist.snoc hallowed

/-- Every run behind a state that is reached is a history of memories that share nothing. -/
theorem private_memories (h : Reachable img (fun _ _ => True) s) (hs : Journal img s l t) (hclean : TablesClean t.trace) :
    ∃ es, List.Forall₂ (fun p e => Seems p.1 p.2 e) l es ∧ History s.pages es t.pages := by
  obtain ⟨es, hall, hist⟩ := hs.history h hclean
  exact ⟨es, hall.imp fun _ _ he => he.1, hist⟩

theorem private_memories_board : ∃ s t r es, Journal board s [(s, .fork r)] t ∧
    List.Forall₂ (fun p e => Seems p.1 p.2 e) [(s, .fork r)] es ∧ History s.pages es t.pages := by
  obtain ⟨lay, s, g, h, -⟩ := board_demanded (n := 8) (by decide)
  obtain ⟨-, -, lay', t, r, -, -, -, hroom, hstep, -⟩ := h.fork
  have hs : Journal board s [(s, .fork r)] t := .snoc .nil hstep
  obtain ⟨es, hes⟩ := private_memories h.reach hs hroom.clean
  exact ⟨s, t, r, es, hs, hes⟩

/-- In any run a page of a task is what it was, with the bytes that the task itself has stored since; no step of
another task, no fault and no fork changes it, and the task's loads read it. -/
theorem own_stores (h : Reachable img (fun _ _ => True) s) (hs : Journal img s l t) (hclean : TablesClean t.trace)
    (hx : s.pages x = some d) :
    t.pages x = some (stored d (l.flatMap (ownStore x))) ∧
      ∀ va pte pa, t.Runs x.1 → va < 2 ^ 38 → pageOf va = x.2 → translate t.mem (satpRoot t.satp) va = some (pte, pa) →
        t.mem pa = stored d (l.flatMap (ownStore x)) (offsetOf va) := by
  obtain ⟨es, hall, hist⟩ := hs.history h hclean
  have hfold : ∀ c, es.foldl (fun c e => e.writes x c) c = stored c (l.flatMap (ownStore x)) := by
    clear hist hs
    induction hall with
    | nil => exact fun _ => rfl
    | cons he _ ih =>
        intro c
        rw [List.foldl_cons, List.flatMap_cons, stored_append, ← he.2 x c]
        exact ih _
  have hpage := hist.own_writes hx
  rw [hfold] at hpage
  refine ⟨hpage, fun va pte pa hi hva hn htr => ?_⟩
  obtain ⟨lay, hinv⟩ := (hs.reachable h hclean).inv hclean
  obtain ⟨c, hc, hread⟩ := hinv.reads hi hva htr
  rw [show slotOf x.1 va = x from Prod.ext rfl hn, hpage] at hc
  cases hc
  exact hread

/-- The parent's page behind its own fork. -/
theorem own_stores_board : ∃ s t r d, Journal board s [(s, .fork r)] t ∧ s.pages (1, 1) = some d ∧ t.pages (1, 1) = some d := by
  obtain ⟨lay, s, g, h, -⟩ := board_demanded (n := 8) (by decide)
  obtain ⟨-, -, lay', t, r, -, -, -, hroom, hstep, -⟩ := h.fork
  have hs : Journal board s [(s, .fork r)] t := .snoc .nil hstep
  have hpage := KState.pages_some (s := s) (x := (1, 1)) (by rw [h.mapped, Function.update_self])
  exact ⟨s, t, r, _, hs, hpage, (own_stores h.reach hs hroom.clean hpage).1⟩

end Runs

end ZjuOs
