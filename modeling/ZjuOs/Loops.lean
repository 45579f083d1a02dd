import ZjuOs.Shares

/-! The loops of the two forks: over the pages of an area, and over the areas of a list. -/
namespace ZjuOs
open Memory Exec

/-- The addresses of `n` pages from `va`. -/
def pagesFrom : Nat → Nat → List Nat
  | _, 0 => []
  | va, n + 1 => va :: pagesFrom (va + PGSIZE) n

/-- The number of rounds of `while (va < stop)`. -/
def rounds (va stop : Nat) : Nat := (stop - va + (PGSIZE - 1)) / PGSIZE

/-- The pages that the loops of the forks visit for an area: its end is excluded. -/
def VmArea.pages (area : VmArea) : List Nat :=
  pagesFrom (PGROUNDDOWN area.vm_start) (rounds (PGROUNDDOWN area.vm_start) area.vm_end)

section Pages
variable {va stop n x : Nat}

@[simp] theorem length_pagesFrom : (pagesFrom va n).length = n := by
  induction n generalizing va with
  | zero => rfl
  | succ n ih => rw [pagesFrom, List.length_cons, ih]

theorem mem_pagesFrom : x ∈ pagesFrom va n ↔ ∃ k, k < n ∧ x = va + PGSIZE * k := by
  induction n generalizing va with
  | zero => simp [pagesFrom]
  | succ n ih =>
      rw [pagesFrom, List.mem_cons, ih]
      constructor
      · rintro (rfl | ⟨k, hk, rfl⟩)
        · exact ⟨0, by omega, by omega⟩
        · exact ⟨k + 1, by omega, by rw [Nat.mul_succ]; omega⟩
      · rintro ⟨k, hk, rfl⟩
        obtain rfl | ⟨k, rfl⟩ : k = 0 ∨ ∃ k', k = k' + 1 := by
          cases k with
          | zero => exact .inl rfl
          | succ k => exact .inr ⟨k, rfl⟩
        · exact .inl (by omega)
        · exact .inr ⟨k, by omega, by rw [Nat.mul_succ]; omega⟩

theorem rounds_of_le (h : stop ≤ va) : rounds va stop = 0 := by
  simp only [rounds, PGSIZE]
  omega

theorem rounds_of_lt (h : va < stop) : rounds va stop = rounds (va + PGSIZE) stop + 1 := by
  simp only [rounds, PGSIZE]
  omega

theorem VmArea.mem_pages {area : VmArea} : x ∈ area.pages ↔
    x % PGSIZE = 0 ∧ PGROUNDDOWN area.vm_start ≤ x ∧ x < area.vm_end := by
  rw [VmArea.pages, mem_pagesFrom]
  simp only [rounds, PGROUNDDOWN, PGSIZE]
  constructor
  · rintro ⟨k, hk, rfl⟩
    omega
  · rintro ⟨halign, hlo, hhi⟩
    exact ⟨(x - area.vm_start / 4096 * 4096) / 4096, by omega, by omega⟩

theorem VmArea.length_pages {area : VmArea} (h : area.vm_end ≤ USER_END) : area.pages.length ≤ 2 ^ 26 := by
  rw [VmArea.pages, length_pagesFrom]
  simp only [rounds, PGROUNDDOWN, PGSIZE, USER_END] at *
  omega

end Pages

section Rules
variable {img : Image} {visit : Nat → K Unit} {mapped : Nat → Bool} {R : KState → List Nat → Prop}
  {E : Halt → KState → Prop} {all : List Nat} {N : Nat} {fresh : Prop}

/-- What the page loop needs to visit the pages `all`: `R t done` is kept when the mapped page after `done` is visited. -/
structure PageRule (fresh : Prop) (img : Image) (visit : Nat → K Unit) (mapped : Nat → Bool) (R : KState → List Nat → Prop)
    (E : Halt → KState → Prop) (all : List Nat) : Prop where
  grows : ∃ k, ∀ va, Grows k (visit va)
  check : ∀ t done va, R t done → va + PGSIZE ≤ USER_END →
    Ends (get >>= fun a => loadWord img (a.current + TASK_PGD) >>= fun pgd => checkValid img va pgd) t
      (fun v u => u = t ∧ v = if mapped va then 1 else 0) fun _ _ => False
  visit : ∀ t done va, R t done → va + PGSIZE ≤ USER_END → va % PGSIZE = 0 → mapped va = true →
    done ++ [va] <+: all → Spec fresh (visit va) t (fun _ u => R u (done ++ [va])) E

theorem PageRule.spec (hl : PageRule fresh img visit mapped R E all) {fuel va stop : Nat} {s : KState}
    {done : List Nat} (hR : R s done) (halign : va % PGSIZE = 0) (hstop : stop ≤ USER_END)
    (hfuel : rounds va stop < fuel) (hall : done ++ (pagesFrom va (rounds va stop)).filter mapped <+: all) :
    Spec fresh (forValidPages img visit fuel va stop) s
      (fun _ t => R t (done ++ (pagesFrom va (rounds va stop)).filter mapped)) E := by
  obtain ⟨k, hgrows⟩ := hl.grows
  induction fuel generalizing s va done with
  | zero => omega
  | succ fuel ih =>
      rw [forValidPages]
      by_cases hlt : va < stop
      · rw [if_pos hlt]
        have hround := rounds_of_lt hlt
        have hpage : va + PGSIZE ≤ USER_END := by
          simp only [PGSIZE, USER_END] at *
          omega
        have hmod : (va + PGSIZE) % 2 ^ 64 = va + PGSIZE := by
          simp only [PGSIZE, USER_END] at *
          omega
        have halign' : (va + PGSIZE) % PGSIZE = 0 := by
          simp only [PGSIZE] at *
          omega
        rw [hround, pagesFrom] at hall
        rw [hround, pagesFrom, hmod]
        have hcheck := hl.check s done va hR hpage
        rw [ends_bind, ends_get, ends_bind] at hcheck
        refine ends_bind.mpr (ends_get.mpr (ends_bind.mpr ?_))
        refine hcheck.mono (fun pgd t ht => ?_) fun _ _ hno => hno.elim
        refine ends_bind.mpr (ht.mono ?_ fun _ _ hno => hno.elim)
        rintro v u ⟨hu, hv⟩
        rw [hu, hv]
        by_cases hm : mapped va = true
        · rw [List.filter_cons_of_pos hm, List.append_cons] at hall
          rw [if_pos hm, if_pos rfl]
          refine Spec.bind (hl.visit s done va hR hpage halign hm ((List.prefix_append ..).trans hall))
            (fun _ => grows_forValidPages hgrows ..) fun _ w hw => ?_
          have hrest := ih hw halign' (by omega) hall
          rwa [List.filter_cons_of_pos hm, List.append_cons]
        · rw [List.filter_cons_of_neg hm] at hall
          rw [if_neg hm, if_neg (by decide)]
          have hrest := ih hR halign' (by omega) hall
          rwa [List.filter_cons_of_neg hm]
      · rw [if_neg hlt, rounds_of_le (by omega), pagesFrom, List.filter_nil, List.append_nil]
        exact .pure hR

/-- What the list loop needs to visit the pages `all`: the nodes of `l` keep their successors, and `R t done` is kept
when a node is visited, which adds its pages. -/
structure AreaRule (fresh : Prop) (visit : VmArea → K Unit) (next : Nat → Nat) (pagesOf : Nat → List Nat)
    (R : KState → List Nat → Prop) (E : Halt → KState → Prop) (all l : List Nat) : Prop where
  grows : ∃ k, ∀ a, Grows k (visit a)
  next : ∀ t done p, R t done → p ∈ l → (t.vma p).vm_next = next p
  visit : ∀ t done p, R t done → p ∈ l → done ++ pagesOf p <+: all →
    Spec fresh (visit (t.vma p)) t (fun _ u => R u (done ++ pagesOf p)) E

theorem AreaRule.spec {visit : VmArea → K Unit} {next : Nat → Nat} {pagesOf : Nat → List Nat} {l : List Nat}
    (hl : AreaRule fresh visit next pagesOf R E all l) {fuel head : Nat} {s : KState} {done l' : List Nat}
    (hsub : ∀ p ∈ l', p ∈ l) (hR : R s done) (hchain : Chain next head l') (hfuel : l'.length < fuel)
    (hall : done ++ l'.flatMap pagesOf <+: all) :
    Spec fresh (forAreas visit fuel head) s (fun _ t => R t (done ++ l'.flatMap pagesOf)) E := by
  obtain ⟨k, hgrows⟩ := hl.grows
  induction l' generalizing fuel head s done with
  | nil =>
      obtain ⟨fuel, rfl⟩ := Nat.exists_eq_succ_of_ne_zero (Nat.ne_of_gt hfuel)
      have hzero : head = 0 := hchain
      rw [forAreas, if_pos hzero, List.flatMap_nil, List.append_nil]
      exact .pure hR
  | cons p l' ih =>
      obtain ⟨fuel, rfl⟩ := Nat.exists_eq_succ_of_ne_zero (Nat.ne_of_gt (Nat.zero_lt_of_lt hfuel))
      obtain ⟨rfl, hne, hrest⟩ := hchain
      have hmem := hsub head List.mem_cons_self
      rw [List.flatMap_cons, ← List.append_assoc] at hall
      rw [List.length_cons] at hfuel
      rw [forAreas, if_neg hne, List.flatMap_cons, ← List.append_assoc]
      refine ends_bind.mpr (ends_get.mpr ?_)
      refine Spec.bind (hl.visit s done head hR hmem ((List.prefix_append ..).trans hall))
        (fun _ => grows_bind grows_get fun _ => grows_forAreas hgrows _ _) fun _ t ht => ?_
      refine ends_bind.mpr (ends_get.mpr ?_)
      rw [hl.next t _ head ht hmem]
      exact ih (fun q hq => hsub q (List.mem_cons_of_mem _ hq)) ht hrest (by omega) hall

end Rules

end ZjuOs
