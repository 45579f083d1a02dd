import ZjuOs.Board

/-!
Reference counts and write permissions along the runs: every step is a sequence of moves of a copy-on-write
memory on the user mappings of all tasks.
-/
namespace ZjuOs
open Memory Exec Sharing

/-- Moves of the user mappings and the counts from one state to another. -/
abbrev UserMoves (once : Prop) (s t : KState) : Prop :=
  Moves pteView userSlots once (s.userPte, s.ref) (t.userPte, t.ref)

section Slots
variable {img : Image} {lay lay' : Layout} {s t u : KState} {i j va pte fl : Nat} {drop : Option Nat} {once : Prop}

/-- The slot of an address of task `i`. -/
abbrev slotOf (i va : Nat) : Nat × Nat := (i, va / PGSIZE % 2 ^ 27)

theorem slotOf_mem (hi : s.Live i) (hva : UserVa va) : slotOf i va ∈ userSlots :=
  mem_userSlots.mpr ⟨hi.2.1, page_lt hva⟩

/-- No mapping and no count of a mapped frame has changed. -/
theorem Paging.recount_moves (h : Paging img lay s) (hmap : t.userPte = s.userPte)
    (href : ∀ f, lay.role f = .data → t.ref f = s.ref f) : UserMoves once s t := by
  rw [UserMoves, hmap]
  exact .single (.recount fun x _ e he => href _ (h.userPte_role he))

theorem Calm.moves (h : Paging img lay s) (hc : Calm img lay lay' s t none) : UserMoves once s t :=
  h.recount_moves (hc.userPte h) fun f hf => by
    have hheld := h.held f (by rw [hf]; exact Role.noConfusion)
    have hsame := hc.ref f hheld.1 hheld.2.2
    rwa [if_neg (by simp), Nat.add_zero] at hsame

theorem Spawned.moves {c d w : Nat} (h : Paging img lay s) (hs : Spawned img s t j c d w) : UserMoves once s t :=
  h.recount_moves (hs.userPte h) fun f hf => by
    have hheld := h.held f (by rw [hf]; exact Role.noConfusion)
    exact hs.ref f hheld.1 hheld.2.2

/-- A page is mapped to a new frame; the reference to the frame that it was mapped to is dropped. -/
theorem Remapped.direct {g : Nat} (h : Paging img lay s) (hi : s.Live i) (hva : UserVa va) (hfl : fl < 1024)
    (hm : Remapped img lay lay' s t (lay.root i) va (2 ^ 10 * g + fl) drop) (hfree : lay.role g = .other)
    (hone : t.ref g = 1) (hdrop : drop = (leafPte s.mem (lay.root i) va).map pteFrame) : UserMoves once s t := by
  have htarget : pteView.target (2 ^ 10 * g + fl) = g := pteFrame_mk hfl
  rw [UserMoves, hm.userPte h hi hva]
  refine .single (.direct (slotOf_mem hi hva) (fun y _ d hd heq => ?_) (by rw [htarget]; exact hone) fun y _ d hd => ?_)
  · have hrole := h.userPte_role hd
    have hdg : pteFrame d = g := heq.trans htarget
    rw [hdg, hfree] at hrole
    cases hrole
  · obtain ⟨hram, href⟩ := h.userPte_held hd
    rw [h.userPte_va hi hva]
    have hsame := hm.ref _ hram href
    rw [hdrop] at hsame
    exact hsame

/-- The last owner of a frame gets write access; a page has been taken. -/
theorem Remapped.enable (h : Paging img lay s) (hi : s.Live i) (hva : UserVa va)
    (hm : Remapped img lay lay' s t (lay.root i) va (setW pte) none) (hpte : leafPte s.mem (lay.root i) va = some pte)
    (hone : s.ref (pteFrame pte) = 1) : UserMoves once s t := by
  have hmap : t.userPte = Function.update s.userPte (slotOf i va) (some (setW pte)) := hm.userPte h hi hva
  have hold : s.userPte (slotOf i va) = some pte := (h.userPte_va hi hva).trans hpte
  have htarget : pteView.target (setW pte) = pteView.target pte := pteFrame_setW pte
  rw [UserMoves, hmap]
  refine .tail (.single (.enable (slotOf_mem hi hva) hold htarget hone)) (.recount fun x _ e he => ?_)
  have hframe : img.Ram (pteFrame e) ∧ s.ref (pteFrame e) ≠ 0 := by
    rcases update_cases he with ⟨rfl, hed⟩ | ⟨_, hxe⟩
    · cases hed
      rw [pteFrame_setW]
      exact h.userPte_held hold
    · exact h.userPte_held hxe
  have hsame := hm.ref _ hframe.1 hframe.2
  rwa [if_neg (by simp), Nat.add_zero] at hsame

theorem Resolved.moves {area : VmArea} {scause : Nat} (h : Paging img lay s) (hi : s.Live i) (hva : UserVa va)
    (hr : Resolved img lay s (lay.root i) va area scause lay' t) : UserMoves once s t := by
  cases hr with
  | demand g hnone hfree _ _ hone hm _ _ =>
      exact hm.direct h hi hva (demandPerm_lt.trans (by decide)) hfree hone (by rw [hnone]; rfl)
  | own old g hpte _ _ hone _ hm _ => exact hm.enable h hi hva hpte hone
  | copy old g g₁ hpte _ _ _ hfree _ _ hone _ _ hm _ _ _ _ =>
      exact hm.direct h hi hva (copyPerm_lt.trans (by decide)) hfree hone (by rw [hpte]; rfl)

theorem Shared.moves (h : Paging img lay s) (hi : s.Live i) (hj : s.Live j) (hij : i ≠ j) (hva : UserVa va)
    (hm : Shared img lay lay' s t (lay.root i) (lay.root j) va pte)
    (honce : once → leafPte s.mem (lay.root j) va = none) : UserMoves once s t := by
  obtain ⟨l, -, -, he, -, hdata, -⟩ := h.of_leafPte (h.task_ok hi).root hva hm.old
  have hlt : pte < 2 ^ 64 := by
    rw [← he]
    exact tables_lt ..
  have htarget : pteView.target (clearW pte) = pteView.target pte := pteFrame_clearW hlt
  have hheld := h.held _ (by rw [hdata]; exact Role.noConfusion)
  rw [UserMoves, hm.userPte h hi hj hva]
  refine .single (.share (slotOf_mem hi hva) (slotOf_mem hj hva) (fun hno => hij (congrArg Prod.fst hno))
    ((h.userPte_va hi hva).trans hm.old) htarget clearW_readonly
    (fun ho => (h.userPte_va hj hva).trans (honce ho)) ?_ fun z _ d hd hne => ?_)
  · have hmore := hm.ref _ hheld.1 hheld.2.2
    rwa [if_pos rfl] at hmore
  · obtain ⟨hram, href⟩ := h.userPte_held hd
    have hsame := hm.ref _ hram href
    rwa [if_neg (show ¬ pteFrame d = pteFrame pte from hne), Nat.add_zero] at hsame

end Slots

section Forks
variable {img : Image} {lay lay' : Layout} {s t : KState} {i j : Nat} {vs : List Nat} {once : Prop}

/-- The number of the page of an address. -/
abbrev pageOf (va : Nat) : Nat := va / 4096 % 2 ^ 27

/-- The pages that have not been shared are unmapped in the new task. -/
theorem Shares.unmapped {r d : Nat} (h : Paging img lay s) (hr : lay.role r = .table r [])
    (hd : lay.role d = .table d []) (hs : Shares img r d lay s vs lay' t)
    (hnone : ∀ va, UserVa va → leafPte s.mem d va = none) {va : Nat} (hva : UserVa va)
    (hnew : pageOf va ∉ vs.map pageOf) : leafPte t.mem d va = none := by
  induction hs with
  | nil => exact hnone va hva
  | @snoc vs lay' lay'' t u v pte hs hshare ih =>
      rw [List.map_append, List.mem_append, not_or] at hnew
      have hpage : pageOf va ≠ pageOf v := fun he => hnew.2 (List.mem_singleton.mpr he)
      have hd' : lay'.role d = .table d [] := by
        rw [(hs.kept h hr).role d (by rw [hd]; exact Role.noConfusion), hd]
      rw [hshare.others d va hd' hva fun hno => hpage hno.2]
      exact ih hnew.1

theorem Shares.moves {r d : Nat} (h : Paging img lay s) (hi : s.Live i) (hj : s.Live j) (hij : i ≠ j)
    (hr : lay.root i = r) (hd : lay.root j = d) (hs : Shares img r d lay s vs lay' t) (huser : ∀ va ∈ vs, UserVa va)
    (hnone : ∀ va, UserVa va → leafPte s.mem d va = none) (honce : once → (vs.map pageOf).Nodup) :
    UserMoves once s t := by
  subst hr hd
  have hri := (h.task_ok hi).root
  have hrj := (h.task_ok hj).root
  induction hs with
  | nil => exact .refl
  | @snoc vs lay' lay'' t u va pte hs hshare ih =>
      have hk := hs.kept h hri
      have hva := huser va (List.mem_append_right _ List.mem_cons_self)
      have hbefore := ih (fun v hv => huser v (List.mem_append_left _ hv)) fun ho => by
        have hall := honce ho
        rw [List.map_append] at hall
        exact hall.of_append_left
      rw [← hk.root] at hshare
      refine hbefore.trans (hshare.moves hk.paging (hk.tasks.live.mpr hi) (hk.tasks.live.mpr hj) hij hva fun ho => ?_)
      rw [hk.root]
      refine hs.unmapped h hri hrj hnone hva ?_
      have hall := honce ho
      rw [List.map_append, List.map_singleton] at hall
      exact fun hmem => (List.disjoint_of_nodup_append hall) hmem (List.mem_singleton.mpr rfl)

theorem mem_visits {vma : Nat → VmArea} {m : Mem} {root va : Nat} {l : List Nat} :
    va ∈ visits vma m root l ↔ (∃ p ∈ l, va ∈ (vma p).pages) ∧ (leafPte m root va).isSome = true := by
  rw [visits, List.mem_filter, List.mem_flatMap]

theorem AreaList.userVa_visits {head : Nat} {l : List Nat} (hl : AreaList img s head l) {m : Mem} {root va : Nat}
    (hva : va ∈ visits s.vma m root l) : va % PGSIZE = 0 ∧ va < 2 ^ 38 := by
  obtain ⟨⟨p, hp, hpage⟩, -⟩ := mem_visits.mp hva
  obtain ⟨halign, -, hlt⟩ := VmArea.mem_pages.mp hpage
  have hend := hl.below p hp
  rw [USER_END] at hend
  exact ⟨halign, by omega⟩

/-- No mapped page of the running task belongs to two of its areas. -/
def AreasApart (s : KState) : Prop :=
  ∀ i, s.Runs i → ∀ l, Chain (fun p => (s.vma p).vm_next) (s.mmap i) l →
    ∀ p ∈ l, ∀ q ∈ l, ∀ va ∈ (s.vma p).pages, va ∈ (s.vma q).pages →
      (leafPte s.mem (s.root i) va).isSome = true → p = q

theorem pages_nodup (area : VmArea) : area.pages.Nodup := by
  have hmono : ∀ n va, (pagesFrom va n).Nodup := by
    intro n
    induction n with
    | zero => exact fun _ => List.nodup_nil
    | succ n ih =>
        intro va
        refine List.nodup_cons.mpr ⟨fun hmem => ?_, ih _⟩
        obtain ⟨k, -, hk⟩ := mem_pagesFrom.mp hmem
        simp only [PGSIZE] at hk
        omega
  exact hmono _ _

theorem AreasApart.nodup (h : Paging img lay s) (ha : AreasApart s) (hi : s.Runs i) {l : List Nat}
    (hl : AreaList img s (mmapOf lay s i) l) : ((visits s.vma s.mem (lay.root i) l).map pageOf).Nodup := by
  have hchain := hl.chain
  rw [h.mmap_eq hi.1] at hchain
  have hapart := ha i hi l hchain
  rw [h.root_eq hi.1] at hapart
  have hnodup : (visits s.vma s.mem (lay.root i) l).Nodup := by
    rw [visits_flatMap]
    refine List.nodup_flatMap.mpr ⟨fun p _ => (pages_nodup _).filter _, ?_⟩
    refine hl.nodup.imp_of_mem fun {p q} hp hq hne va hvp hvq => ?_
    obtain ⟨hvp, hmap⟩ := List.mem_filter.mp hvp
    exact hne (hapart p hp q hq va hvp (List.mem_filter.mp hvq).1 hmap)
  refine hnodup.map_on fun va hva va' hva' hpage => ?_
  have h1 := hl.userVa_visits hva
  have h2 := hl.userVa_visits hva'
  simp only [PGSIZE, pageOf] at h1 h2 hpage
  omega

theorem CowForked.moves {l : List Nat} {n : Int} (h : Paging img lay s) (hi : s.Runs i)
    (hl : AreaList img s (mmapOf lay s i) l) (hf : CowForked img lay s i l n lay' t)
    (honce : once → AreasApart s) : UserMoves once s t := by
  cases hf with
  | full _ _ _ hc => exact hc.moves h
  | child j c d u v _ hs hsh ht =>
      have hij : i ≠ j := by
        rintro rfl
        exact hi.1.2.2 hs.empty
      have hp := hs.paging h
      have hiu : u.Live i := hs.live.mpr (.inl hi.1)
      have hju : u.Live j := hs.live.mpr (.inr rfl)
      have eri : (lay.spawn j c d).root i = lay.root i := Function.update_of_ne hij ..
      have erj : (lay.spawn j c d).root j = d := Function.update_self ..
      have hshares : UserMoves once u v :=
        hsh.moves hp hiu hju hij eri erj (fun va hva => .of_lt (hl.userVa_visits hva).2)
          (fun va hva => hs.leaves_new h hva) fun ho => (honce ho).nodup h hi hl
      rw [ht]
      exact (hs.moves h).trans hshares

end Forks

section Runs
variable {img : Image} {lay lay' : Layout} {s t : KState} {a : Act} {once : Prop}

/-- What a step does to the user mappings and their counts. -/
theorem Stepped.moves (h : RunInv img lay s) (hs : Stepped img lay s a lay' t) (h' : RunInv img lay' t)
    (honce : once → ∀ regs, a = .fork regs → AreasApart s) : UserMoves once s t := by
  cases hs with
  | stay => exact .refl
  | switch _ _ _ hmem hbuddy htask _ _ =>
      refine h.paging.recount_moves (h.paging.userPte_congr h'.paging htask rfl fun r va _ _ => by rw [hmem]) fun f _ => ?_
      rw [KState.ref, KState.ref, hbuddy]
  | fault hr hl hsel _ hres => exact hres.moves h.paging hr.live (hl.userVa hsel)
  | fork hr hl hf => exact hf.moves h.paging ⟨hr.live, hr.current⟩ hl fun ho => honce ho _ rfl
  | store _ _ _ _ hkeep =>
      exact h.paging.recount_moves (h.paging.userPte_congr h'.paging rfl rfl fun r va hroot huser =>
        h.paging.leafPte_congr hkeep hroot huser) fun _ _ => rfl
  | kernel hkeep _ _ =>
      exact h.paging.recount_moves (h.paging.userPte_congr h'.paging rfl rfl fun r va hroot huser =>
        h.paging.leafPte_congr hkeep hroot huser) fun _ _ => rfl

theorem Started.unmapped_user {m : Mem} (h : Started img m lay s) (x : Nat × Nat) : s.userPte x = none := by
  cases hx : s.userPte x with
  | none => rfl
  | some pte => exact absurd (h.paging.userPte_role hx) (h.unmapped _)

/-- In every state of a run every count covers the user mappings of its frame, and a writable user mapping is the
only one of its frame. -/
theorem exclusive_writer (h : Reachable img (fun _ _ => True) s) (hclean : TablesClean s.trace) :
    Exclusive pteView userSlots s.userPte s.ref := by
  have hstart : ∀ m lay t, Started img m lay t → AreasBelow t → Exclusive pteView userSlots t.userPte t.ref := by
    intro m lay t hs _
    constructor
    · intro x _ e he
      rw [hs.unmapped_user] at he
      cases he
    · intro x _ y _ e e' he
      rw [hs.unmapped_user] at he
      cases he
  obtain ⟨lay, -, hp⟩ := h.rule hclean hstart fun lay t a lay' u hinv hp _ hs hinv' => by
    have hmoves : UserMoves False t u := hs.moves hinv hinv' False.elim
    exact Exclusive.moves hp hmoves
  exact hp

theorem exclusive_writer_board : ∃ s, Reachable board (fun _ _ => True) s ∧ TablesClean s.trace ∧
    Exclusive pteView userSlots s.userPte s.ref := by
  obtain ⟨_, _, _, t, _, _, -, -, -, hreach, hroom, -⟩ := board_copied
  exact ⟨t, hreach, hroom.clean, exclusive_writer hreach hroom.clean⟩

/-- In every run in which no fork finds a mapped page in two areas of the parent, the count of a mapped frame is the
number of its user mappings. -/
theorem counts_exact (h : Reachable img (fun s a => ∀ regs, a = .fork regs → AreasApart s) s)
    (hclean : TablesClean s.trace) : Exact pteView userSlots s.userPte s.ref := by
  have hstart : ∀ m lay t, Started img m lay t → AreasBelow t → Exact pteView userSlots t.userPte t.ref := by
    intro m lay t hs _ x _ e he
    rw [hs.unmapped_user] at he
    cases he
  obtain ⟨lay, -, hp⟩ := h.rule hclean hstart fun lay t a lay' u hinv hp hok hs hinv' => by
    have hmoves : UserMoves True t u := hs.moves hinv hinv' fun _ => hok
    exact Exact.moves hp trivial hmoves
  exact hp

/-- The stack page is in one area alone, so a fork counts it once. -/
theorem areasApart_stack {lay : Layout} {s : KState} {n pte : Nat}
    (h : OnBoard lay s n (Function.update (fun _ => none) (1, 2 ^ 26 - 1) (some pte))) : AreasApart s := by
  intro i hi l hchain p hp q hq va hvp hvq hmap
  have hpag := h.room.inv.paging
  obtain rfl := hpag.runs_unique hi h.runs
  obtain ⟨p₁, p₂, p₃, hl, h₁, h₂, h₃⟩ := h.list
  have hhead := hl.chain
  rw [hpag.mmap_eq h.runs.1] at hhead
  obtain rfl := hchain.unique hhead
  -- the page at `0x1000`, which two of the areas have, is not mapped
  have hlow : va ≠ 0x1000 := by
    rintro rfl
    rw [hpag.root_eq h.runs.1, h.leaf, Function.update_of_ne (by decide)] at hmap
    cases hmap
  have hpages : (s.vma p₂).pages = [0x1000] ∧ (s.vma p₃).pages = [0x1000] := by
    simp only [VmArea.pages, h₂.1, h₂.2.1, h₃.1, h₃.2.1]
    decide
  have hstack : ∀ r ∈ [p₁, p₂, p₃], va ∈ (s.vma r).pages → r = p₁ := by
    intro r hr hva
    simp only [List.mem_cons, List.not_mem_nil, or_false] at hr
    obtain rfl | rfl | rfl := hr
    · rfl
    · rw [hpages.1] at hva
      exact absurd (List.mem_singleton.mp hva) hlow
    · rw [hpages.2] at hva
      exact absurd (List.mem_singleton.mp hva) hlow
  rw [hstack p hp hvp, hstack q hq hvq]

/-- The stack page behind a demand fault and a fork: two mappings, and the count is 2. -/
theorem counts_exact_board : ∃ s f j pte, Reachable board (fun s a => ∀ regs, a = .fork regs → AreasApart s) s ∧
    TablesClean s.trace ∧ j ≠ 1 ∧ s.userPte (1, 2 ^ 26 - 1) = some pte ∧ s.userPte (j, 2 ^ 26 - 1) = some pte ∧
    pteView.target pte = f ∧ s.ref f = 2 ∧ Exact pteView userSlots s.userPte s.ref := by
  obtain ⟨lay, s, lay₁, t, r, lay₂, u, g, j, hj, h, hstart, hfault, hmapped, hfork, hforked, htwo, -⟩ :=
    board_stack_forked (n := 0) (Nat.zero_le _)
  have hreach : Reachable board (fun s a => ∀ regs, a = .fork regs → AreasApart s) u :=
    ((hstart _ fun _ _ _ he => by cases he).step (fun _ he => by cases he) hfault).step
      (fun _ _ => areasApart_stack hmapped) hfork
  have hne : ((1, 2 ^ 26 - 1) : Nat × Nat) ≠ (j, 2 ^ 26 - 1) := fun he => hj (Prod.mk.inj he).1.symm
  refine ⟨u, g, j, 2 ^ 10 * g + 0x13, hreach, hforked.room.clean, hj, ?_, ?_, pteFrame_mk (by decide), htwo,
    counts_exact hreach hforked.room.clean⟩
  · rw [hforked.mapped, Function.update_of_ne hne, Function.update_self]
  · rw [hforked.mapped, Function.update_self]

/-- Two segments share a page, and a fork counts it twice. -/
theorem counts_differ_board : ∃ s, Reachable board (fun _ _ => True) s ∧ TablesClean s.trace ∧
    ¬ Exact pteView userSlots s.userPte s.ref := by
  obtain ⟨lay, s, g, j, hj, h, hthree⟩ := board_forked (n := 0) (Nat.zero_le _)
  refine ⟨s, h.reach, h.room.clean, fun hexact => ?_⟩
  have hne : ((1, 1) : Nat × Nat) ≠ (j, 1) := fun he => hj (Prod.mk.inj he).1.symm
  have hpte : s.userPte (1, 1) = some (2 ^ 10 * g + 0x13) := by
    rw [h.mapped, Function.update_of_ne hne, Function.update_self]
  have huser : UserVa 0x1000 := .of_lt (Nat.le_of_ble_eq_true rfl)
  have hcount := hexact (1, 1) (slotOf_mem h.runs.1 huser) _ hpte
  rw [show pteView.target (2 ^ 10 * g + 0x13) = g from pteFrame_mk (by decide), hthree] at hcount
  have hsub : userSlots.filter (fun x => (s.userPte x).map pteView.target = some g) ⊆ {(1, 1), (j, 1)} := by
    intro x hx
    rw [Finset.mem_insert, Finset.mem_singleton]
    by_contra hno
    rw [not_or] at hno
    have hmap := (Finset.mem_filter.mp hx).2
    rw [h.mapped, Function.update_of_ne hno.2, Function.update_of_ne hno.1] at hmap
    cases hmap
  have htwo := (Finset.card_le_card hsub).trans Finset.card_le_two
  rw [count] at hcount
  omega

end Runs

end ZjuOs
