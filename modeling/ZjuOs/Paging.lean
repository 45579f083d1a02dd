import ZjuOs.PageTable

/-!
The invariant of the address spaces. Every frame in use has one role; a user table has one owner, the
root of an address space and the way from it, so that address spaces share no user table.
-/
namespace ZjuOs
open Memory Exec Radix

/-- What a frame is used for; `other` covers free frames and all that no table entry may name. -/
inductive Role
  | other
  | table (root : Nat) (path : List (Fin 512))
  | task
  | data

structure Layout where
  role : Nat → Role
  page : Nat → Nat
  root : Nat → Nat

def Layout.own (lay : Layout) (f : Nat) : Option (Nat × List (Fin 512)) :=
  match lay.role f with
  | .table r p => some (r, p)
  | _ => none

/-- Root entries from 384 on are the kernel half (`VM_START` has root index 384). -/
def UserSlot (p : List (Fin 512)) (i : Fin 512) : Prop := p = [] → i.val < 384

/-- The address belongs to the user half. -/
def UserVa (va : Nat) : Prop := VPN va 2 < 384

def Image.swapperFrame (img : Image) : Nat := VA2PA img.swapperPgDir / PGSIZE

/-- `task[i]` is the page `lay.page i`, with the root table `lay.root i`. -/
structure TaskOk (lay : Layout) (s : KState) (i : Nat) : Prop where
  ptr : s.task i = framePtr (lay.page i)
  page : lay.role (lay.page i) = .task
  pgd : ld 8 s.mem (lay.page i * 4096 + TASK_PGD) = framePtr (lay.root i)
  root : lay.role (lay.root i) = .table (lay.root i) []

structure Paging (img : Image) (lay : Layout) (s : KState) : Prop where
  pages : s.Pages img
  held : ∀ f, lay.role f ≠ .other → img.Ram f ∧ img.firstFree ≤ f ∧ s.ref f ≠ 0
  owned : Owned pteFormat (tables s.mem) 2 UserSlot lay.own
  pointer : ∀ f r p i, lay.role f = .table r p → p.length < 2 → UserSlot p i →
    tables s.mem f i % 2 = 1 → pteFlags (tables s.mem f i) = 1
  leaf : ∀ f r p i, lay.role f = .table r p → p.length = 2 → tables s.mem f i % 2 = 1 →
    lay.role (pteFrame (tables s.mem f i)) = .data ∧ pteFlags (tables s.mem f i) < 32 ∧
      (tables s.mem f i).testBit PTE_U = true
  task : ∀ i, 1 ≤ i → i < NR_TASKS → s.task i ≠ 0 → TaskOk lay s i
  apart : ∀ i j, 1 ≤ i → i < NR_TASKS → s.task i ≠ 0 → 1 ≤ j → j < NR_TASKS → s.task j ≠ 0 → i ≠ j →
    lay.page i ≠ lay.page j ∧ lay.root i ≠ lay.root j
  swapper : ∀ i : Fin 512, i.val < 384 → tables s.mem img.swapperFrame i % 2 = 0

/-- Task `i` is running: `current` and `satp` are its own. -/
structure Running (lay : Layout) (s : KState) (i : Nat) : Prop where
  pos : 1 ≤ i
  lt : i < NR_TASKS
  some : s.task i ≠ 0
  current : s.current = s.task i
  satp : satpRoot s.satp = lay.root i

section Roles
variable {img : Image} {lay : Layout} {s : KState} {f r va : Nat} {p : List (Fin 512)}

theorem own_eq_some : lay.own f = some (r, p) ↔ lay.role f = .table r p := by
  rw [Layout.own]
  cases lay.role f <;> simp

theorem own_eq_none : lay.own f = none ↔ ∀ r p, lay.role f ≠ .table r p := by
  rw [Layout.own]
  cases lay.role f <;> simp

theorem Paging.table_held (h : Paging img lay s) (hf : lay.role f = .table r p) :
    img.Ram f ∧ img.firstFree ≤ f ∧ s.ref f ≠ 0 := h.held f (by rw [hf]; exact Role.noConfusion)

theorem Paging.table_ram (h : Paging img lay s) (hf : lay.role f = .table r p) : img.Ram f :=
  (h.table_held hf).1

theorem UserVa.allowed (h : UserVa va) : Allowed UserSlot [] (path va) := by
  refine ⟨fun _ => h, ?_, trivial⟩
  intro hne
  cases hne

/-- What a valid user leaf is. -/
theorem Paging.of_leafPte (h : Paging img lay s) (hr : lay.role r = .table r []) (hva : UserVa va) {pte : Nat}
    (hpte : leafPte s.mem r va = some pte) :
    ∃ l, descend pteFormat (tables s.mem) r (path va) = some l ∧ lay.role l = .table r (path va) ∧
      tables s.mem l (vpn va 0) = pte ∧ pte % 2 = 1 ∧ lay.role (pteFrame pte) = .data ∧
      pteFlags pte < 32 ∧ pte.testBit PTE_U = true := by
  obtain ⟨l, hd, he, hodd⟩ := leafPte_eq_some.mp hpte
  have hl := h.owned.descend (own_eq_some.mpr hr) (by simp [path]) hva.allowed hd
  rw [List.nil_append, own_eq_some] at hl
  obtain ⟨hdata, hflags, hu⟩ := h.leaf l r (path va) (vpn va 0) hl rfl (by rw [he]; exact hodd)
  rw [he] at hdata hflags hu
  exact ⟨l, hd, hl, he, hodd, hdata, hflags, hu⟩

end Roles

/-- Page tables in frames in use; `dom` says which inner entries count. -/
structure TableTree (img : Image) (dom : List (Fin 512) → Fin 512 → Prop) (own : Nat → Option (Nat × List (Fin 512)))
    (s : KState) : Prop where
  pages : s.Pages img
  held : ∀ f x, own f = some x → img.Ram f ∧ s.ref f ≠ 0
  owned : Owned pteFormat (tables s.mem) 2 dom own

/-- The valid inner entries are pointers, as the hardware reads them. -/
def Pointers (dom : List (Fin 512) → Fin 512 → Prop) (own : Nat → Option (Nat × List (Fin 512))) (m : Mem) : Prop :=
  ∀ f x p i, own f = some (x, p) → p.length < 2 → dom p i → tables m f i % 2 = 1 → pteFlags (tables m f i) = 1

section Walk
variable {img : Image} {dom : List (Fin 512) → Fin 512 → Prop} {own : Nat → Option (Nat × List (Fin 512))} {s : KState}
  {f r va j : Nat} {p : List (Fin 512)}

/-- The part of the way of `va` below level `j`. -/
def pathFrom (va : Nat) : Nat → List (Fin 512)
  | 0 => []
  | j + 1 => vpn va (j + 1) :: pathFrom va j

theorem pathFrom_two (va : Nat) : pathFrom va 2 = path va := rfl

@[simp] theorem length_pathFrom (va j : Nat) : (pathFrom va j).length = j := by
  induction j with
  | zero => rfl
  | succ j ih => rw [pathFrom, List.length_cons, ih]

theorem TableTree.walkTables (h : TableTree img dom own s) (hf : own f = some (r, p)) (hlen : p.length + j = 2)
    (hq : Allowed dom p (pathFrom va j)) :
    Ends (walkTables img va j (framePtr f)) s
      (fun o t => t = s ∧ o = (descend pteFormat (tables s.mem) f (pathFrom va j)).map framePtr)
      fun _ _ => False := by
  induction j generalizing f p with
  | zero => exact ends_pure.mpr ⟨rfl, rfl⟩
  | succ j ih =>
      have hram := (h.held f _ hf).1
      rw [ZjuOs.walkTables, ends_bind, ends_loadEntry hram (VPN_lt va (j + 1)), and_one_eq, pathFrom, descend]
      have hentry : entry s.mem f (VPN va (j + 1)) = tables s.mem f (vpn va (j + 1)) := rfl
      rw [hentry]
      by_cases hv : pteFormat.valid (tables s.mem f (vpn va (j + 1))) = true
      · have hnext := h.owned.next f r p _ hf (by omega) hq.1 hv
        have hram' := (h.held _ _ hnext).1
        have hodd := pteFormat_valid.mp hv
        rw [pteFormat_target] at hnext hram'
        rw [if_neg (by omega), if_pos hv, pteTable_eq hram', pteFormat_target]
        exact ih hnext (by simp only [List.length_append, List.length_singleton]; omega) hq.2
      · have heven := pteFormat_invalid.mp (Bool.not_eq_true _ ▸ hv)
        rw [if_pos heven, if_neg hv]
        exact ends_pure.mpr ⟨rfl, rfl⟩

theorem TableTree.checkValid (h : TableTree img dom own s) (hr : own r = some (r, [])) (hva : Allowed dom [] (path va)) :
    Ends (checkValid img va (framePtr r)) s
      (fun v t => t = s ∧ v = if (leafPte s.mem r va).isSome then 1 else 0) fun _ _ => False := by
  rw [ZjuOs.checkValid, ends_bind]
  refine (h.walkTables (j := 2) hr rfl hva).mono ?_ fun _ _ hno => hno
  rintro o t ⟨rfl, ho⟩
  rw [ho, pathFrom_two]
  cases hd : descend pteFormat (tables t.mem) r (path va) with
  | none =>
      have hnone : leafPte t.mem r va = none := by rw [leafPte, lookup_eq_descend, hd]; rfl
      simp [hnone]
  | some l =>
      have hl := h.owned.descend hr (by simp [path]) hva hd
      have hram := (h.held _ _ hl).1
      simp only [Option.map_some, ends_bind]
      rw [ends_loadEntry hram (VPN_lt va 0), ends_pure, and_one_eq]
      have hlook : leafPte t.mem r va = if pteFormat.valid (tables t.mem l (vpn va 0)) = true then
          some (tables t.mem l (vpn va 0)) else none := by
        rw [leafPte, lookup_eq_descend, hd, Option.bind_some]
      have hentry : entry t.mem l (VPN va 0) = tables t.mem l (vpn va 0) := rfl
      rw [hlook, hentry]
      refine ⟨rfl, ?_⟩
      by_cases hv : pteFormat.valid (tables t.mem l (vpn va 0)) = true
      · have hodd := pteFormat_valid.mp hv
        rw [if_pos hv, if_neg (by omega)]
        rfl
      · have heven := pteFormat_invalid.mp (Bool.not_eq_true _ ▸ hv)
        rw [if_neg hv, if_pos heven]
        rfl

theorem TableTree.leafTable (h : TableTree img dom own s) (hf : own f = some (r, p)) (hlen : p.length + j = 2)
    (hq : Allowed dom p (pathFrom va j)) {l : Nat} (hd : descend pteFormat (tables s.mem) f (pathFrom va j) = some l) :
    Ends (leafTable img va j (framePtr f)) s (fun o t => t = s ∧ o = framePtr l) fun _ _ => False := by
  induction j generalizing f p with
  | zero =>
      cases hd
      exact ends_pure.mpr ⟨rfl, rfl⟩
  | succ j ih =>
      have hram := (h.held f _ hf).1
      rw [pathFrom, descend] at hd
      split at hd
      · next hv =>
          have hnext := h.owned.next f r p _ hf (by omega) hq.1 hv
          have hram' := (h.held _ _ hnext).1
          rw [ZjuOs.leafTable, ends_bind, ends_loadEntry hram (VPN_lt va (j + 1))]
          have hentry : entry s.mem f (VPN va (j + 1)) = tables s.mem f (vpn va (j + 1)) := rfl
          rw [pteFormat_target] at hnext hram' hd
          rw [hentry, pteTable_eq hram']
          exact ih hnext (by simp only [List.length_append, List.length_singleton]; omega) hq.2 hd
      · cases hd

end Walk

section Hardware
variable {img : Image} {dom : List (Fin 512) → Fin 512 → Prop} {own : Nat → Option (Nat × List (Fin 512))} {s : KState}
  {f r va : Nat} {p : List (Fin 512)}

/-- What the hardware makes of a valid leaf entry: only one that is readable and writable in the order the
architecture allows maps a page. -/
def hwLeaf (va pte : Nat) : Option (Nat × Nat) :=
  if pteFaults pte || !pteLeaf pte then none else some (pte, pteFrame pte * 4096 + va % 4096)

theorem hwLeaf_readable {pte : Nat} (hv : pte.testBit PTE_V = true) (hr : pte.testBit PTE_R = true) :
    hwLeaf va pte = some (pte, pteFrame pte * 4096 + va % 4096) := by
  rw [hwLeaf, pteFaults, pteLeaf, hv, hr]
  rfl

theorem hwLeaf_some {pte : Nat} {x : Nat × Nat} (h : hwLeaf va pte = some x) : x.1 = pte := by
  rw [hwLeaf] at h
  split at h
  · cases h
  · cases h
    rfl

theorem pteFaults_of_even {pte : Nat} (h : pte % 2 = 0) : pteFaults pte = true := by
  have hv : pte.testBit PTE_V = false := by
    cases hb : pte.testBit PTE_V with
    | false => rfl
    | true => have := testBit_zero_iff.mp hb; omega
  rw [pteFaults, hv]
  rfl

theorem pteFaults_pointer {pte : Nat} (h : pteFlags pte = 1) : pteFaults pte = false := by
  rw [pteFaults, testBit_pteFlags (j := PTE_V) (by decide), testBit_pteFlags (j := PTE_R) (by decide),
    testBit_pteFlags (j := PTE_W) (by decide), h]
  decide

theorem pteLeaf_pointer {pte : Nat} (h : pteFlags pte = 1) : pteLeaf pte = false := by
  rw [pteLeaf, testBit_pteFlags (j := PTE_R) (by decide), testBit_pteFlags (j := PTE_X) (by decide), h]
  decide

/-- The hardware walk reads the tables as `create_mapping` does. -/
theorem TableTree.sv39Walk_eq (h : TableTree img dom own s) (hp : Pointers dom own s.mem) {j : Nat} (hf : own f = some (r, p))
    (hlen : p.length + j = 2) (hq : Allowed dom p (pathFrom va j)) :
    sv39Walk s.mem va j f = (lookup pteFormat (tables s.mem) f (pathFrom va j) (vpn va 0)).bind fun pte =>
      if pteFaults pte || !pteLeaf pte then none else some (pte, 0) := by
  induction j generalizing f p with
  | zero =>
      rw [sv39Walk, pathFrom, lookup]
      have hentry : entry s.mem f (VPN va 0) = tables s.mem f (vpn va 0) := rfl
      rw [hentry]
      by_cases hv : pteFormat.valid (tables s.mem f (vpn va 0)) = true
      · rw [if_pos hv, Option.bind_some]
        cases pteFaults (tables s.mem f (vpn va 0)) <;> cases pteLeaf (tables s.mem f (vpn va 0)) <;> rfl
      · have heven := pteFormat_invalid.mp (Bool.not_eq_true _ ▸ hv)
        rw [if_neg hv, if_pos (pteFaults_of_even heven), Option.bind_none]
  | succ j ih =>
      rw [sv39Walk, pathFrom, lookup]
      have hentry : entry s.mem f (VPN va (j + 1)) = tables s.mem f (vpn va (j + 1)) := rfl
      rw [hentry]
      by_cases hv : pteFormat.valid (tables s.mem f (vpn va (j + 1))) = true
      · have hnext := h.owned.next f r p _ hf (by omega) hq.1 hv
        have hodd := pteFormat_valid.mp hv
        have hflags := hp f r p _ hf (by omega) hq.1 hodd
        rw [pteFormat_target] at hnext
        rw [if_pos hv, if_neg (by rw [pteFaults_pointer hflags]; decide),
          if_neg (by rw [pteLeaf_pointer hflags]; decide), ppn_eq (h.held _ _ hnext).1, pteFormat_target]
        exact ih hnext (by simp only [List.length_append, List.length_singleton]; omega) hq.2
      · have heven := pteFormat_invalid.mp (Bool.not_eq_true _ ▸ hv)
        rw [if_neg hv, if_pos (pteFaults_of_even heven), Option.bind_none]

/-- The translation of an address is the one of its leaf entry. -/
theorem TableTree.translate_eq (h : TableTree img dom own s) (hp : Pointers dom own s.mem) (hr : own r = some (r, []))
    (hcan : Canonical va) (hva : Allowed dom [] (path va)) (hlt : ∀ pte, leafPte s.mem r va = some pte → ppn pte = pteFrame pte) :
    translate s.mem r va = (leafPte s.mem r va).bind (hwLeaf va) := by
  rw [translate, if_pos hcan, h.sv39Walk_eq (j := 2) hp hr rfl hva, pathFrom_two, ← leafPte]
  cases hpte : leafPte s.mem r va with
  | none => rfl
  | some pte =>
      rw [Option.bind_some, Option.bind_some, hwLeaf]
      by_cases hno : (pteFaults pte || !pteLeaf pte) = true
      · rw [if_pos hno, if_pos hno, Option.bind_none]
      · rw [if_neg hno, if_neg hno, Option.bind_some, ← hlt pte hpte]
        exact if_pos (Nat.mod_one _)

end Hardware

section User
variable {img : Image} {lay : Layout} {s : KState} {f r va j : Nat} {p : List (Fin 512)}

/-- The page tables of the tasks. -/
theorem Paging.tree (h : Paging img lay s) : TableTree img UserSlot lay.own s where
  pages := h.pages
  held := fun f x hf => by
    have hheld := h.table_held (own_eq_some.mp hf)
    exact ⟨hheld.1, hheld.2.2⟩
  owned := h.owned

theorem Paging.pointers (h : Paging img lay s) : Pointers UserSlot lay.own s.mem := fun f r p i hf =>
  h.pointer f r p i (own_eq_some.mp hf)

theorem checkValid_spec (h : Paging img lay s) (hr : lay.role r = .table r []) (hva : UserVa va) :
    Ends (checkValid img va (framePtr r)) s
      (fun v t => t = s ∧ v = if (leafPte s.mem r va).isSome then 1 else 0) fun _ _ => False :=
  h.tree.checkValid (own_eq_some.mpr hr) hva.allowed

theorem leafTable_spec (h : Paging img lay s) (hf : lay.role f = .table r p) (hlen : p.length + j = 2)
    (hq : Allowed UserSlot p (pathFrom va j)) {l : Nat}
    (hd : descend pteFormat (tables s.mem) f (pathFrom va j) = some l) :
    Ends (leafTable img va j (framePtr f)) s (fun o t => t = s ∧ o = framePtr l) fun _ _ => False :=
  h.tree.leafTable (own_eq_some.mpr hf) hlen hq hd

theorem Paging.translate_user (h : Paging img lay s) (hr : lay.role r = .table r []) (hlow : va < 2 ^ 38) :
    translate s.mem r va = (leafPte s.mem r va).bind (hwLeaf va) := by
  have huser : UserVa va := by
    rw [UserVa, VPN_eq]
    omega
  refine h.tree.translate_eq h.pointers (own_eq_some.mpr hr) (.inl (by omega)) huser.allowed fun pte hpte => ?_
  obtain ⟨l, -, -, -, -, hdata, -, -⟩ := h.of_leafPte hr huser hpte
  exact ppn_eq (h.held _ (by rw [hdata]; exact Role.noConfusion)).1

end User

end ZjuOs
