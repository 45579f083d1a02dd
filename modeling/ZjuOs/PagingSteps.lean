import ZjuOs.Paging

/-! How the stores of `create_mapping` and of the copy-on-write paths act on the address spaces. -/
namespace ZjuOs
open Memory Exec Radix

/-- The tasks and the registers that select one are the same. -/
structure SameTasks (s t : KState) : Prop where
  task : t.task = s.task
  tasksNumber : t.tasksNumber = s.tasksNumber
  current : t.current = s.current
  idle : t.idle = s.idle
  satp : t.satp = s.satp
  vma : t.vma = s.vma

section SameTasks
variable {s t u : KState}

theorem SameTasks.refl (s : KState) : SameTasks s s := ⟨rfl, rfl, rfl, rfl, rfl, rfl⟩

theorem SameTasks.trans (h : SameTasks s t) (h' : SameTasks t u) : SameTasks s u :=
  ⟨h'.task.trans h.task, h'.tasksNumber.trans h.tasksNumber, h'.current.trans h.current,
    h'.idle.trans h.idle, h'.satp.trans h.satp, h'.vma.trans h.vma⟩

theorem SameTasks.of_withBuddy {b : Buddy} : SameTasks s (s.withBuddy b) := ⟨rfl, rfl, rfl, rfl, rfl, rfl⟩

theorem SameTasks.running {lay : Layout} {i : Nat} (h : SameTasks s t) (hr : Running lay s i) :
    Running lay t i :=
  { hr with
    some := by rw [h.task]; exact hr.some
    current := by rw [h.current, h.task]; exact hr.current
    satp := by rw [h.satp]; exact hr.satp }

end SameTasks

def Layout.withRole (lay : Layout) (f : Nat) (r : Role) : Layout :=
  { lay with role := Function.update lay.role f r }

section Frames
variable {img : Image} {lay : Layout} {s t : KState} {f g x : Nat}

theorem Taken.other (h : Paging img lay s) (ht : Taken img s t g) : lay.role g = .other := by
  by_contra hne
  exact (h.held g hne).2.2 ht.free

theorem Taken.mem (ht : Taken img s t g) : t.mem = s.mem := by
  obtain ⟨b, rfl⟩ := ht.rest
  rfl

theorem Taken.trace (ht : Taken img s t g) : t.trace = s.trace := by
  obtain ⟨b, rfl⟩ := ht.rest
  rfl

theorem Taken.tasks (ht : Taken img s t g) : SameTasks s t := by
  obtain ⟨b, rfl⟩ := ht.rest
  exact .of_withBuddy

theorem Taken.ref (ht : Taken img s t g) (hf : img.Ram f) (href : s.ref f ≠ 0) : t.ref f = s.ref f := by
  refine ht.others f hf ?_
  rintro rfl
  exact href ht.free

theorem Image.swapperFrame_lt (img : Image) : img.swapperFrame < img.firstFree := by
  have h1 := img.swapper_start
  have h2 := img.swapper_end
  have h3 := img.room
  have hpos := Nat.two_pow_pos img.order
  have h20 := img.two_pow_order_le
  simp only [Image.swapperFrame, Image.firstFree, reservedPages, freePageStart, VA2PA, VM_START, PGSIZE,
    PA2VA_OFFSET, PHY_START] at *
  omega

theorem Paging.ne_swapper {r : Nat} {p : List (Fin 512)} (h : Paging img lay s)
    (hx : lay.role x = .table r p) : x ≠ img.swapperFrame := by
  have h1 := (h.table_held hx).2.1
  have h2 := img.swapperFrame_lt
  omega

end Frames

section EditLeaf
variable {img : Image} {lay : Layout} {s : KState} {l a pte : Nat} {b : List (Fin 512)} {k : Fin 512}

/-- What a valid leaf entry must be. -/
def LeafOk (lay : Layout) (pte : Nat) : Prop :=
  lay.role (pteFrame pte) = .data ∧ pteFlags pte < 32 ∧ pte.testBit PTE_U = true

theorem tables_edit (hlt : pte < 2 ^ 64) : tables (s.edit l k pte).mem = Radix.set (tables s.mem) l k pte := by
  rw [KState.edit_mem, tables_setEntry, Nat.mod_eq_of_lt hlt]

theorem sameFrame_edit {f : Nat} (h : f ≠ l) : SameFrame (s.edit l k pte).mem s.mem f :=
  sameFrame_setEntry k.isLt h.symm

theorem Paging.edit_leaf (h : Paging img lay s) (hl : lay.role l = .table a b) (hb : b.length = 2)
    (hlt : pte < 2 ^ 64) (hok : pte % 2 = 1 → LeafOk lay pte) : Paging img lay (s.edit l k pte) := by
  have hne : ∀ f r p, lay.role f = .table r p → p.length < 2 → f ≠ l := by
    rintro f r p hf hp rfl
    rw [hl] at hf
    cases hf
    omega
  constructor
  case pages => exact h.pages
  case held => exact h.held
  case owned =>
    rw [tables_edit hlt]
    exact h.owned.set_leaf (own_eq_some.mpr hl) hb
  case pointer =>
    intro f r p i hf hp hi
    rw [tables_edit hlt, set_of_ne_table (hne f r p hf hp)]
    exact h.pointer f r p i hf hp hi
  case leaf =>
    intro f r p i hf hp
    rw [tables_edit hlt]
    by_cases hslot : f = l ∧ i = k
    · obtain ⟨rfl, rfl⟩ := hslot
      rw [set_self]
      exact hok
    · have hdiff : f ≠ l ∨ i ≠ k := by
        by_cases hfl : f = l
        · exact .inr fun hik => hslot ⟨hfl, hik⟩
        · exact .inl hfl
      rw [set_of_ne hdiff]
      exact h.leaf f r p i hf hp
  case task =>
    intro i h1 hi hne
    have ok := h.task i h1 hi hne
    have hpage : lay.page i ≠ l := by
      intro he
      have := ok.page
      rw [he, hl] at this
      cases this
    exact { ok with pgd := ((sameFrame_edit hpage).ld (by decide)).trans ok.pgd }
  case apart => exact h.apart
  case swapper =>
    intro i hi
    rw [tables_edit hlt, set_of_ne_table (h.ne_swapper hl).symm]
    exact h.swapper i hi

theorem Paging.leafPte_edit (h : Paging img lay s) (hl : lay.role l = .table a b) (hb : b.length = 2)
    (hlt : pte < 2 ^ 64) {r va : Nat} (hr : lay.role r = .table r []) (hva : UserVa va)
    (hne : (r, path va, vpn va 0) ≠ (a, b, k)) : leafPte (s.edit l k pte).mem r va = leafPte s.mem r va := by
  rw [leafPte, leafPte, tables_edit hlt]
  exact h.owned.lookup_set_leaf (own_eq_some.mpr hl) hb (own_eq_some.mpr hr) rfl hva.allowed hne

theorem Paging.leafPte_edit_self (h : Paging img lay s) {va : Nat} (hva : UserVa va)
    (ha : lay.role a = .table a []) (hd : descend pteFormat (tables s.mem) a (path va) = some l)
    (hlt : pte < 2 ^ 64) (hodd : pte % 2 = 1) : leafPte (s.edit l (vpn va 0) pte).mem a va = some pte := by
  have hl := h.owned.descend (own_eq_some.mpr ha) (by simp [path]) hva.allowed hd
  rw [List.nil_append] at hl
  rw [leafPte, tables_edit hlt, h.owned.lookup_set_leaf_self hl rfl (own_eq_some.mpr ha) hva.allowed hd,
    if_pos (pteFormat_valid.mpr hodd)]

end EditLeaf

/-- Inner tables change only at entries of the user half that were not valid. -/
def InnerKept (lay : Layout) (m m' : Mem) : Prop :=
  ∀ f r p k, lay.role f = .table r p → p.length < 2 →
    tables m' f k = tables m f k ∨ (tables m f k % 2 = 0 ∧ UserSlot p k)

section InnerKept
variable {lay lay' : Layout} {m m' m'' : Mem} {f g r : Nat} {p q : List (Fin 512)} {k : Fin 512}

theorem InnerKept.of_same (h : ∀ f r p, lay.role f = .table r p → p.length < 2 → SameFrame m' m f) :
    InnerKept lay m m' := fun f r p _ hf hp => .inl (by rw [tables_congr (h f r p hf hp)])

theorem InnerKept.refl : InnerKept lay m m := .of_same fun _ _ _ _ _ => .refl _ _

theorem InnerKept.trans (h : InnerKept lay m m') (hrole : ∀ f r p, lay.role f = .table r p → lay'.role f = .table r p)
    (h' : InnerKept lay' m' m'') : InnerKept lay m m'' := by
  intro f r p k hf hp
  rcases h f r p k hf hp with hsame | hnew
  · rcases h' f r p k (hrole f r p hf) hp with hsame' | ⟨heven, hk⟩
    · exact .inl (hsame'.trans hsame)
    · exact .inr ⟨hsame ▸ heven, hk⟩
  · exact .inr hnew

/-- A way through valid entries stays. -/
theorem InnerKept.descend (h : InnerKept lay m m') (ho : Owned pteFormat (tables m) 2 UserSlot lay.own)
    (hf : lay.role f = .table r p) (hlen : p.length + q.length ≤ 2) (hq : Allowed UserSlot p q)
    (hd : Radix.descend pteFormat (tables m) f q = some g) : Radix.descend pteFormat (tables m') f q = some g := by
  induction q generalizing f p with
  | nil => exact hd
  | cons k q ih =>
      rw [List.length_cons] at hlen
      rw [Radix.descend] at hd ⊢
      split at hd
      · next hv =>
          have hodd := pteFormat_valid.mp hv
          have hsame : tables m' f k = tables m f k := by
            rcases h f r p k hf (by omega) with hsame | ⟨heven, -⟩
            · exact hsame
            · omega
          rw [hsame, if_pos hv]
          exact ih (own_eq_some.mp (ho.next f r p k (own_eq_some.mpr hf) (by omega) hq.1 hv))
            (by simp only [List.length_append, List.length_singleton]; omega) hq.2 hd
      · cases hd

/-- The kernel half of a root table stays. -/
theorem InnerKept.kernel (h : InnerKept lay m m') (hr : lay.role r = .table r []) (hk : 384 ≤ k.val) :
    tables m' r k = tables m r k := by
  rcases h r r [] k hr (by simp) with hsame | ⟨-, hlow⟩
  · exact hsame
  · have := hlow rfl
    omega

end InnerKept

/-- User addresses translate in `m` as in `s`. -/
def SameUser (lay : Layout) (s : KState) (m : Mem) : Prop :=
  ∀ r va, lay.role r = .table r [] → va < 2 ^ 38 → translate m r va = translate s.mem r va

/-- `f` is a user table on a way from the root `a`. -/
def Reached (lay : Layout) (m : Mem) (a f : Nat) : Prop :=
  ∃ p, lay.role f = .table a p ∧ p.length ≤ 2 ∧ Allowed UserSlot [] p ∧ descend pteFormat (tables m) a p = some f

/-- The address spaces after tables have been added below the root `a`: what was in use keeps its role, its
count and, unless it is a table, its bytes; every leaf is as before. -/
structure Grown (img : Image) (a : Nat) (lay lay' : Layout) (s t : KState) : Prop where
  paging : Paging img lay' t
  role : ∀ f, lay.role f ≠ .other → lay'.role f = lay.role f
  added : ∀ f, lay.role f = .other → lay'.role f ≠ .other → s.ref f = 0 ∧ Reached lay' t.mem a f
  page : lay'.page = lay.page
  root : lay'.root = lay.root
  ref : ∀ f, img.Ram f → s.ref f ≠ 0 → t.ref f = s.ref f
  free : ∀ f, img.Ram f → s.ref f = 0 → lay'.role f = .other → t.ref f = 0
  frame : ∀ f, (∀ r p, lay'.role f ≠ .table r p) → SameFrame t.mem s.mem f
  descend : ∀ r q f, Radix.descend pteFormat (tables s.mem) r q = some f →
    Radix.descend pteFormat (tables t.mem) r q = some f
  inner : InnerKept lay s.mem t.mem
  leaves : ∀ r va, lay.role r = .table r [] → UserVa va → leafPte t.mem r va = leafPte s.mem r va
  tasks : SameTasks s t
  logged : Logged s t (SameUser lay s)
  sparing : Sparing img s t

section Grown
variable {img : Image} {lay lay' lay'' : Layout} {s t u : KState} {a : Nat}

theorem Grown.refl (h : Paging img lay s) : Grown img a lay lay s s where
  paging := h
  role := fun _ _ => rfl
  added := fun _ h0 h1 => absurd h0 h1
  page := rfl
  root := rfl
  ref := fun _ _ _ => rfl
  free := fun _ _ hz _ => hz
  descend := fun _ _ _ hd => hd
  inner := .refl
  frame := fun _ _ => .refl _ _
  leaves := fun _ _ _ _ => rfl
  tasks := .refl s
  logged := .refl s
  sparing := .refl s

theorem UserVa.of_lt {va : Nat} (h : va < 2 ^ 38) : UserVa va := by
  rw [UserVa, VPN_eq]
  omega

/-- Equal leaves are equal translations. -/
theorem SameUser.of_leaves (h : Paging img lay s) (h' : Paging img lay' t)
    (hrole : ∀ f, lay.role f ≠ .other → lay'.role f = lay.role f)
    (hleaf : ∀ r va, lay.role r = .table r [] → UserVa va → leafPte t.mem r va = leafPte s.mem r va) :
    SameUser lay s t.mem := by
  intro r va hr hlow
  have hr' : lay'.role r = .table r [] := by rw [hrole r (by rw [hr]; exact Role.noConfusion), hr]
  rw [h'.translate_user hr' hlow, h.translate_user hr hlow, hleaf r va hr (.of_lt hlow)]

theorem Grown.sameUser (h : Paging img lay s) (hg : Grown img a lay lay' s t) : SameUser lay s t.mem :=
  .of_leaves h hg.paging hg.role hg.leaves

theorem Grown.table {f r : Nat} {p : List (Fin 512)} (h : Grown img a lay lay' s t)
    (hf : lay.role f = .table r p) : lay'.role f = .table r p := by
  rw [h.role f (by rw [hf]; exact Role.noConfusion), hf]

theorem Grown.trans (h₀ : Paging img lay s) (h : Grown img a lay lay' s t) (h' : Grown img a lay' lay'' t u) :
    Grown img a lay lay'' s u where
  paging := h'.paging
  role := fun f hf => by
    have h1 := h.role f hf
    rw [h'.role f (by rw [h1]; exact hf), h1]
  added := by
    intro f h0 h2
    by_cases h1 : lay'.role f = .other
    · obtain ⟨hz, p, hp, hreach⟩ := h'.added f h1 h2
      refine ⟨?_, p, hp, hreach⟩
      by_contra hne
      have hram := (h'.paging.table_held hp).1
      rw [h.ref f hram hne] at hz
      exact hne hz
    · obtain ⟨hz, p, hp, hlen, hq, hd⟩ := h.added f h0 h1
      exact ⟨hz, p, h'.table hp, hlen, hq, h'.descend _ _ _ hd⟩
  page := h'.page.trans h.page
  root := h'.root.trans h.root
  ref := fun f hf hne => by
    have h1 := h.ref f hf hne
    rw [h'.ref f hf (by rw [h1]; exact hne), h1]
  free := fun f hf hz h2 => by
    have h1 : lay'.role f = .other := by
      by_contra hne
      exact hne ((h'.role f hne).symm.trans h2)
    exact h'.free f hf (h.free f hf hz h1) h2
  descend := fun r q f hd => h'.descend r q f (h.descend r q f hd)
  inner := h.inner.trans (fun _ _ _ hp => h.table hp) h'.inner
  frame := fun f hf => by
    refine (h'.frame f hf).trans (h.frame f fun r p hp => ?_)
    exact hf r p (h'.table hp)
  leaves := fun r va hr hva => (h'.leaves r va (h.table hr) hva).trans (h.leaves r va hr hva)
  tasks := h.tasks.trans h'.tasks
  logged := h.logged.trans <| h'.logged.mono fun m hm r va hr hlow =>
    (hm r va (h.table hr) hlow).trans (h.sameUser h₀ r va hr hlow)
  sparing := h.sparing.trans h'.sparing

end Grown

section AddTable
variable {img : Image} {lay : Layout} {s t : KState} {x a g : Nat} {b : List (Fin 512)} {k : Fin 512}

theorem own_withRole {r : Nat} {p : List (Fin 512)} :
    (lay.withRole g (.table r p)).own = Function.update lay.own g (some (r, p)) := by
  funext f
  by_cases hf : f = g
  · subst hf
    simp [Layout.own, Layout.withRole]
  · simp [Layout.own, Layout.withRole, Function.update_of_ne hf]

theorem role_withRole {r : Role} : (lay.withRole g r).role g = r := Function.update_self ..

theorem role_withRole_of_ne {f : Nat} {r : Role} (h : f ≠ g) : (lay.withRole g r).role f = lay.role f :=
  Function.update_of_ne h _ _

theorem Taken.ne (h : Paging img lay s) (ht : Taken img s t g) (hx : lay.role x ≠ .other) : x ≠ g := by
  rintro rfl
  exact hx (ht.other h)

theorem Taken.role_of_ne (h : Paging img lay s) (ht : Taken img s t g) {r : Role} (hx : lay.role x ≠ .other) :
    (lay.withRole g r).role x = lay.role x := role_withRole_of_ne (ht.ne h hx)

theorem Taken.tables_addTable (ht : Taken img s t g) :
    tables (t.addTable x k g).mem = Radix.set (tables s.mem) x k (2 ^ 10 * g + 1) := by
  have hbound := ht.ram.bounds
  rw [KState.addTable, tables_edit (by omega), KState.log_mem, ht.mem]

theorem Taken.sameFrame_addTable (ht : Taken img s t g) {f : Nat} (hf : f ≠ x) :
    SameFrame (t.addTable x k g).mem s.mem f := by
  have hsame : SameFrame ((t.log (.table (framePtr g) t.mem)).edit x k (2 ^ 10 * g + 1)).mem
      (t.log (.table (framePtr g) t.mem)).mem f := sameFrame_edit hf
  rwa [KState.log_mem, ht.mem] at hsame

theorem Taken.tasks_addTable (ht : Taken img s t g) : SameTasks s (t.addTable x k g) :=
  ht.tasks.trans ⟨rfl, rfl, rfl, rfl, rfl, rfl⟩

theorem Taken.sparing_addTable (ht : Taken img s t g) (hx : img.Ram x) (href : s.ref x ≠ 0) :
    Sparing img s (t.addTable x k g) := by
  have hxg : x ≠ g := by
    rintro rfl
    exact href ht.free
  refine Sparing.trans (t := t.log (.table (framePtr g) t.mem)) ⟨ht.sparing.unused, fun page m hm => ?_⟩ (.edit k.isLt ?_)
  · rcases List.mem_cons.mp hm with he | he
    · cases he
      exact .inr ⟨g, ht.ram, rfl, ht.free, by rw [ht.mem]; exact .refl _ _⟩
    · exact ht.sparing.tables page m he
  · rw [KState.ref_log, ht.others x hx hxg]
    exact href

/-- The new table is an extension of the radix tables. -/
theorem Taken.extends (h : Paging img lay s) (ht : Taken img s t g) (heven : tables s.mem x k % 2 = 0)
    (hclean : ∀ j, tables s.mem g j % 2 = 0) :
    Extends pteFormat (tables s.mem) lay.own x k (2 ^ 10 * g + 1) g where
  invalid := pteFormat_invalid.mpr heven
  fresh := own_eq_none.mpr fun r p => by rw [ht.other h]; exact Role.noConfusion
  empty := fun i => pteFormat_invalid.mpr (hclean i)
  valid := pteFormat_valid.mpr (by omega)
  target := pteFrame_mk (by omega)

theorem Paging.add_table (h : Paging img lay s) (hx : lay.role x = .table a b) (hb : b.length < 2)
    (heven : tables s.mem x k % 2 = 0) (ht : Taken img s t g) (hclean : ∀ j, tables s.mem g j % 2 = 0) :
    Paging img (lay.withRole g (.table a (b ++ [k]))) (t.addTable x k g) := by
  have hgx : x ≠ g := ht.ne h (by rw [hx]; exact Role.noConfusion)
  have hrole : ∀ f, lay.role f ≠ .other → (lay.withRole g (.table a (b ++ [k]))).role f = lay.role f :=
    fun f hf => ht.role_of_ne h hf
  have hslot : ∀ f i, ¬ (f = x ∧ i = k) → tables (t.addTable x k g).mem f i = tables s.mem f i := by
    intro f i hne
    rw [ht.tables_addTable]
    refine set_of_ne ?_
    by_cases hfx : f = x
    · exact .inr fun hik => hne ⟨hfx, hik⟩
    · exact .inl hfx
  have hempty : ∀ i, tables (t.addTable x k g).mem g i % 2 = 0 := by
    intro i
    rw [hslot g i fun hs => hgx hs.1.symm]
    exact hclean i
  constructor
  case pages => exact ht.pages
  case held =>
    intro f hf
    by_cases hfg : f = g
    · subst hfg
      refine ⟨ht.ram, ht.above, ?_⟩
      change t.ref f ≠ 0
      rw [ht.taken]
      exact Nat.one_ne_zero
    · rw [role_withRole_of_ne hfg] at hf
      obtain ⟨hram, habove, href⟩ := h.held f hf
      refine ⟨hram, habove, ?_⟩
      change t.ref f ≠ 0
      rw [ht.ref hram href]
      exact href
  case owned =>
    rw [own_withRole, ht.tables_addTable]
    exact h.owned.extend (own_eq_some.mpr hx) (ht.extends h heven hclean)
  case pointer =>
    intro f r p i hf hp hi hodd
    by_cases hfg : f = g
    · subst hfg
      have := hempty i
      omega
    · rw [role_withRole_of_ne hfg] at hf
      by_cases hs : f = x ∧ i = k
      · obtain ⟨rfl, rfl⟩ := hs
        rw [ht.tables_addTable, set_self]
        exact pteFlags_mk (by omega)
      · rw [hslot f i hs] at hodd ⊢
        exact h.pointer f r p i hf hp hi hodd
  case leaf =>
    intro f r p i hf hp hodd
    by_cases hfg : f = g
    · subst hfg
      have := hempty i
      omega
    · rw [role_withRole_of_ne hfg] at hf
      have hs : ¬ (f = x ∧ i = k) := by
        rintro ⟨rfl, -⟩
        rw [hx] at hf
        cases hf
        omega
      rw [hslot f i hs] at hodd ⊢
      obtain ⟨hdata, hflags, hu⟩ := h.leaf f r p i hf hp hodd
      exact ⟨by rw [hrole _ (by rw [hdata]; exact Role.noConfusion), hdata], hflags, hu⟩
  case task =>
    intro i h1 hi hne
    rw [ht.tasks_addTable.task] at hne
    have ok := h.task i h1 hi hne
    have hpage : lay.page i ≠ x := by
      intro he
      have := ok.page
      rw [he, hx] at this
      cases this
    exact
      { ptr := by rw [ht.tasks_addTable.task]; exact ok.ptr
        page := by
          change (lay.withRole g _).role (lay.page i) = _
          rw [hrole _ (by rw [ok.page]; exact Role.noConfusion), ok.page]
        pgd := ((ht.sameFrame_addTable hpage).ld (by decide)).trans ok.pgd
        root := by
          change (lay.withRole g _).role (lay.root i) = _
          rw [hrole _ (by rw [ok.root]; exact Role.noConfusion), ok.root]
          rfl }
  case apart =>
    intro i j h1 hi hne h1' hj hne'
    rw [ht.tasks_addTable.task] at hne hne'
    exact h.apart i j h1 hi hne h1' hj hne'
  case swapper =>
    intro i hi
    rw [hslot _ i fun hs => h.ne_swapper hx hs.1.symm]
    exact h.swapper i hi

theorem Grown.add_table (h : Paging img lay s) (hx : lay.role x = .table a b) (hb : b.length < 2)
    (hq : Allowed UserSlot [] b) (hk : UserSlot b k) (hd : Radix.descend pteFormat (tables s.mem) a b = some x)
    (heven : tables s.mem x k % 2 = 0) (ht : Taken img s t g) (hclean : ∀ j, tables s.mem g j % 2 = 0) :
    Grown img a lay (lay.withRole g (.table a (b ++ [k]))) s (t.addTable x k g) := by
  have hkeep : ∀ r q f, Radix.descend pteFormat (tables s.mem) r q = some f →
      Radix.descend pteFormat (tables (t.addTable x k g).mem) r q = some f := by
    intro r q f hd
    rw [ht.tables_addTable]
    exact descend_extend (pteFormat_invalid.mpr heven) hd
  have hnext : Radix.descend pteFormat (tables (t.addTable x k g).mem) a (b ++ [k]) = some g := by
    rw [descend_append, hkeep a b x hd, Option.bind_some, Radix.descend, ht.tables_addTable, set_self,
      if_pos (pteFormat_valid.mpr (by omega)), pteFormat_target, pteFrame_mk (by omega)]
    rfl
  have hpaging := h.add_table hx hb heven ht hclean
  have hleaves : ∀ r va, lay.role r = .table r [] → UserVa va →
      leafPte (t.addTable x k g).mem r va = leafPte s.mem r va := by
    intro r va hr hva
    rw [leafPte, leafPte, ht.tables_addTable]
    exact h.owned.lookup_extend (own_eq_some.mpr hx) hb (ht.extends h heven hclean) (own_eq_some.mpr hr)
      rfl hva.allowed
  constructor
  case paging => exact hpaging
  case role => exact fun f hf => ht.role_of_ne h hf
  case added =>
    intro f h0 h1
    by_cases hf : f = g
    · subst hf
      exact ⟨ht.free, b ++ [k], role_withRole, by rw [List.length_append, List.length_singleton]; omega,
        allowed_concat hq hk, hnext⟩
    · rw [role_withRole_of_ne hf] at h1
      exact absurd h0 h1
  case page => rfl
  case root => rfl
  case ref => exact fun f hf href => ht.ref hf href
  case free =>
    intro f hf hz hother
    refine (ht.others f hf ?_).trans hz
    rintro rfl
    rw [role_withRole] at hother
    cases hother
  case descend => exact hkeep
  case inner =>
    intro f r p k' hf hp
    rw [ht.tables_addTable]
    by_cases hs : f = x ∧ k' = k
    · obtain ⟨rfl, rfl⟩ := hs
      rw [hx] at hf
      cases hf
      exact .inr ⟨heven, hk⟩
    · refine .inl (set_of_ne ?_)
      by_cases hfx : f = x
      · exact .inr fun hkk => hs ⟨hfx, hkk⟩
      · exact .inl hfx
  case frame =>
    intro f hf
    refine ht.sameFrame_addTable ?_
    rintro rfl
    exact hf a b (by rw [ht.role_of_ne h (by rw [hx]; exact Role.noConfusion), hx])
  case leaves => exact hleaves
  case tasks => exact ht.tasks_addTable
  case logged =>
    exact (Logged.of_trace_eq ht.trace).trans <| (Logged.table _ _).trans <| .edit <|
      .of_leaves h hpaging (fun f hf => ht.role_of_ne h hf) hleaves
  case sparing =>
    obtain ⟨hram, -, href⟩ := h.table_held hx
    exact ht.sparing_addTable hram href

end AddTable

section DataWrites
variable {img : Image} {lay : Layout} {s : KState} {m : Mem} {g : Nat}

/-- The memory has changed outside the tables, the page-table pointers of tasks and the kernel image. -/
structure KeepsTables (img : Image) (lay : Layout) (s : KState) (m : Mem) : Prop where
  table : ∀ f r p, lay.role f = .table r p → SameFrame m s.mem f
  task : ∀ f, lay.role f = .task → ld 8 m (f * 4096 + TASK_PGD) = ld 8 s.mem (f * 4096 + TASK_PGD)
  image : ∀ f, f < img.firstFree → SameFrame m s.mem f

theorem Paging.descend_congr (h : Paging img lay s) (hm : KeepsTables img lay s m) {r : Nat}
    (hr : lay.role r = .table r []) {q : List (Fin 512)} (hq : Allowed UserSlot [] q) (hlen : q.length ≤ 2) :
    descend pteFormat (tables m) r q = descend pteFormat (tables s.mem) r q :=
  h.owned.descend_congr (own_eq_some.mpr hr) (by simpa using hlen) hq fun x r' p' hx _ =>
    tables_congr (hm.table x r' p' (own_eq_some.mp hx))

theorem Paging.leafPte_congr (h : Paging img lay s) (hm : KeepsTables img lay s m) {r va : Nat}
    (hr : lay.role r = .table r []) (hva : UserVa va) : leafPte m r va = leafPte s.mem r va := by
  rw [leafPte, leafPte, lookup_eq_descend, lookup_eq_descend,
    h.descend_congr hm hr hva.allowed (by simp [path])]
  refine Option.bind_congr fun l hd => ?_
  have hl := h.owned.descend (own_eq_some.mpr hr) (by simp [path]) hva.allowed hd
  rw [tables_congr (hm.table l _ _ (own_eq_some.mp hl))]

theorem Paging.withMem (h : Paging img lay s) (hm : KeepsTables img lay s m) :
    Paging img lay (s.withMem m) := by
  have htab : ∀ f r p, lay.role f = .table r p → tables m f = tables s.mem f :=
    fun f r p hf => tables_congr (hm.table f r p hf)
  constructor
  case pages => exact h.pages
  case held => exact h.held
  case owned =>
    refine ⟨fun f r p i hf hp hi hv => ?_⟩
    have he := htab f r p (own_eq_some.mp hf)
    rw [KState.withMem_mem, he] at hv ⊢
    exact h.owned.next f r p i hf hp hi hv
  case pointer =>
    intro f r p i hf hp hi hodd
    rw [KState.withMem_mem, htab f r p hf] at hodd ⊢
    exact h.pointer f r p i hf hp hi hodd
  case leaf =>
    intro f r p i hf hp hodd
    rw [KState.withMem_mem, htab f r p hf] at hodd ⊢
    exact h.leaf f r p i hf hp hodd
  case task =>
    intro i h1 hi hne
    have ok := h.task i h1 hi hne
    exact { ok with pgd := (hm.task _ ok.page).trans ok.pgd }
  case apart => exact h.apart
  case swapper =>
    intro i hi
    rw [KState.withMem_mem, tables_congr (hm.image _ img.swapperFrame_lt)]
    exact h.swapper i hi

theorem KeepsTables.inner (hm : KeepsTables img lay s m) : InnerKept lay s.mem m :=
  .of_same fun f r p hf _ => hm.table f r p hf

/-- Stores to one data frame. -/
theorem Paging.keepsTables_data (h : Paging img lay s) (hg : lay.role g = .data)
    (hm : ∀ x, x < g * 4096 ∨ g * 4096 + 4096 ≤ x → m x = s.mem x) : KeepsTables img lay s m := by
  have hframe : ∀ f, f ≠ g → SameFrame m s.mem f := fun f hf o ho => hm _ (by omega)
  have habove := (h.held g (by rw [hg]; exact Role.noConfusion)).2.1
  constructor
  case table =>
    intro f r p hf
    refine hframe f fun hfg => ?_
    rw [hfg, hg] at hf
    cases hf
  case task =>
    intro f hf
    have hne : f ≠ g := fun hfg => by
      rw [hfg, hg] at hf
      cases hf
    exact (hframe f hne).ld (o := TASK_PGD) (by decide)
  case image =>
    intro f hf
    exact hframe f (by omega)

theorem Paging.sparing_data (h : Paging img lay s) (hg : lay.role g = .data)
    (hm : ∀ x, x < g * 4096 ∨ g * 4096 + 4096 ≤ x → m x = s.mem x) : Sparing img s (s.withMem m) := by
  refine .withMem fun f _ h0 o ho => hm _ ?_
  have hfg : f ≠ g := by
    rintro rfl
    exact (h.held f (by rw [hg]; exact Role.noConfusion)).2.2 h0
  omega

/-- Stores to the pages of tasks, outside the words that point to their root tables, and to pages without a
role. -/
theorem Paging.keepsTables_task (h : Paging img lay s)
    (hm : ∀ f o, o < 4096 → (lay.role f = .task → TASK_PGD ≤ o ∧ o < TASK_PGD + 8) →
      (lay.role f = .other → f < img.firstFree) → m (f * 4096 + o) = s.mem (f * 4096 + o)) :
    KeepsTables img lay s m := by
  constructor
  case table =>
    intro f r p hf o ho
    exact hm f o ho (fun ht => by rw [hf] at ht; cases ht) fun ht => by rw [hf] at ht; cases ht
  case task =>
    intro f hf
    refine ld_shift fun o ho => ?_
    rw [Nat.add_assoc]
    exact hm f _ (by simp only [TASK_PGD]; omega) (fun _ => by simp only [TASK_PGD]; omega)
      fun ht => by rw [hf] at ht; cases ht
  case image =>
    intro f hf o ho
    refine hm f o ho (fun ht => ?_) fun _ => hf
    have := (h.held f (by rw [ht]; exact Role.noConfusion)).2.1
    omega

end DataWrites

section Counts
variable {img : Image} {lay : Layout} {s t : KState} {f n : Nat}

/-- The counts have changed, and no frame with a role has lost its last reference. -/
theorem Paging.withRefs (h : Paging img lay s) (hp : t.Pages img) (ht : ∃ b, t = s.withBuddy b)
    (href : ∀ f, lay.role f ≠ .other → t.ref f ≠ 0) : Paging img lay t := by
  obtain ⟨b, rfl⟩ := ht
  exact
    { pages := hp
      held := fun f hf => ⟨(h.held f hf).1, (h.held f hf).2.1, href f hf⟩
      owned := h.owned
      pointer := h.pointer
      leaf := h.leaf
      task := fun i h1 hi hne => { h.task i h1 hi hne with }
      apart := h.apart
      swapper := h.swapper }

theorem Paging.recount (h : Paging img lay s) (ht : Recounted img s t f n) (hn : n ≠ 0) :
    Paging img lay t := by
  refine h.withRefs ht.pages ht.rest fun g hg => ?_
  obtain ⟨hram, -, href⟩ := h.held g hg
  by_cases hgf : g = f
  · rw [hgf, ht.counted]
    exact hn
  · rw [ht.others g hram hgf]
    exact href

theorem Recounted.tasks (ht : Recounted img s t f n) : SameTasks s t := by
  obtain ⟨b, rfl⟩ := ht.rest
  exact .of_withBuddy

theorem Recounted.trace (ht : Recounted img s t f n) : t.trace = s.trace := by
  obtain ⟨b, rfl⟩ := ht.rest
  rfl

theorem Recounted.mem (ht : Recounted img s t f n) : t.mem = s.mem := by
  obtain ⟨b, rfl⟩ := ht.rest
  rfl

/-- A frame is handed out and becomes a data frame. -/
theorem Paging.take_data (h : Paging img lay s) (ht : Taken img s t f) :
    Paging img (lay.withRole f .data) t := by
  have hother := ht.other h
  have hrole : ∀ g, lay.role g ≠ .other → (lay.withRole f .data).role g = lay.role g := by
    intro g hg
    refine role_withRole_of_ne ?_
    rintro rfl
    exact hg hother
  have hback : ∀ g r p, (lay.withRole f .data).role g = .table r p → lay.role g = .table r p := by
    intro g r p hg
    by_cases hgf : g = f
    · rw [hgf, role_withRole] at hg
      cases hg
    · rwa [role_withRole_of_ne hgf] at hg
  constructor
  case pages => exact ht.pages
  case held =>
    intro g hg
    by_cases hgf : g = f
    · rw [hgf]
      exact ⟨ht.ram, ht.above, by rw [ht.taken]; exact Nat.one_ne_zero⟩
    · rw [role_withRole_of_ne hgf] at hg
      obtain ⟨hram, habove, href⟩ := h.held g hg
      exact ⟨hram, habove, by rw [ht.ref hram href]; exact href⟩
  case owned =>
    refine ⟨fun g r p i hg hp hi hv => ?_⟩
    rw [ht.mem] at hv ⊢
    have hnext := h.owned.next g r p i (own_eq_some.mpr (hback g r p (own_eq_some.mp hg))) hp hi hv
    rw [own_eq_some] at hnext ⊢
    rw [hrole _ (by rw [hnext]; exact Role.noConfusion), hnext]
  case pointer =>
    intro g r p i hg
    rw [ht.mem]
    exact h.pointer g r p i (hback g r p hg)
  case leaf =>
    intro g r p i hg hp hodd
    rw [ht.mem] at hodd ⊢
    obtain ⟨hdata, hflags, hu⟩ := h.leaf g r p i (hback g r p hg) hp hodd
    exact ⟨by rw [hrole _ (by rw [hdata]; exact Role.noConfusion), hdata], hflags, hu⟩
  case task =>
    intro i h1 hi hne
    rw [ht.tasks.task] at hne
    have ok := h.task i h1 hi hne
    exact
      { ptr := by rw [ht.tasks.task]; exact ok.ptr
        page := by
          change (lay.withRole f .data).role (lay.page i) = _
          rw [hrole _ (by rw [ok.page]; exact Role.noConfusion), ok.page]
        pgd := by rw [ht.mem]; exact ok.pgd
        root := by
          change (lay.withRole f .data).role (lay.root i) = _
          rw [hrole _ (by rw [ok.root]; exact Role.noConfusion), ok.root]
          rfl }
  case apart =>
    intro i j h1 hi hne h1' hj hne'
    rw [ht.tasks.task] at hne hne'
    exact h.apart i j h1 hi hne h1' hj hne'
  case swapper =>
    rw [ht.mem]
    exact h.swapper

end Counts

section Mapping
variable {img : Image} {lay : Layout} {s : KState} {x a : Nat} {b : List (Fin 512)} {k : Fin 512} {fresh : Prop}

/-- No frame of RAM is free. -/
def OutOfPages (img : Image) (s : KState) : Prop := ∀ f, img.Ram f → s.ref f ≠ 0

/-- When no frame is free, the pages that were handed out and those that were in use are all there are. -/
theorem OutOfPages.two_pow_le {t : KState} {j : Nat} (h : OutOfPages img t) (hp : s.Pages img) (hw : Within j s t) :
    2 ^ img.order ≤ s.buddy.inUse + j := by
  obtain ⟨live, hinv, -⟩ := hp
  have hsize : t.buddy.size = 2 ^ img.order := hw.size.trans hinv.size
  have hall : (Finset.range t.buddy.size).filter (fun p => t.buddy.refCnt p ≠ 0) = Finset.range (2 ^ img.order) := by
    rw [hsize]
    refine Finset.filter_true_of_mem fun p hp => ?_
    have hlt := Finset.mem_range.mp hp
    have hne := h (p + 0x80000) ⟨by omega, by omega⟩
    rwa [KState.ref, Nat.add_sub_cancel] at hne
  have hcard := hw.inUse
  rwa [Buddy.inUse, hall, Finset.card_range] at hcard

theorem tables_eq_of_clean {t : KState} {g : Nat} (ht : Taken img s t g) (hfresh : fresh → Fresh img s)
    (hclean : fresh ∨ TablesClean (t.addTable x k g).trace) (j : Fin 512) : tables s.mem g j % 2 = 0 := by
  rcases hclean with hf | hclean
  · exact hfresh hf g ht.ram ht.free j j.isLt
  have hev := hclean (framePtr g) t.mem (by simp [KState.addTable, KState.edit]) j j.isLt
  have hpa := VA2PA_framePtr ht.ram (o := 0) (by omega)
  rw [Nat.add_zero, Nat.add_zero] at hpa
  rw [hpa, ht.mem] at hev
  rw [tables, entry]
  exact hev

/-- One level of the walk, in a user table reached from its root. -/
theorem nextTable_grown (h : Paging img lay s) (hfresh : fresh → Fresh img s) (ha : lay.role a = .table a []) (hb : b.length < 2)
    (hq : Allowed UserSlot [] b) (hd : descend pteFormat (tables s.mem) a b = some x) (hk : UserSlot b k) :
    Spec fresh (nextTable img (framePtr x) k) s
      (fun p t => (p = 0 ∧ OutOfPages img t) ∨ ∃ lay' y, p = framePtr y ∧ Grown img a lay lay' s t ∧
        descend pteFormat (tables t.mem) a (b ++ [k]) = some y)
      fun _ _ => False := by
  have hx := h.owned.descend (own_eq_some.mpr ha) (by simp only [List.length_nil]; omega) hq hd
  rw [List.nil_append, own_eq_some] at hx
  refine Ends.mono (nextTable_spec h.pages (h.table_ram hx)) ?_ fun _ _ hno => hno.elim
  intro p t hp hclean
  cases hp with
  | present hodd he ht =>
      right
      subst ht
      rw [he]
      have hv := pteFormat_valid.mpr hodd
      have hnext := own_eq_some.mp (h.owned.next x a b k (own_eq_some.mpr hx) hb hk hv)
      refine ⟨lay, _, pteTable_eq (h.table_ram hnext), .refl h, ?_⟩
      rw [descend_append, hd, Option.bind_some, descend, if_pos hv]
      rfl
  | fresh t g heven htaken he ht =>
      right
      rw [ht] at hclean ⊢
      rw [he]
      have hempty := tables_eq_of_clean htaken hfresh hclean
      have hgrown := Grown.add_table h hx hb hq hk hd heven htaken hempty
      obtain ⟨-, p, hp, -, -, hreach⟩ := hgrown.added g (htaken.other h) (by rw [role_withRole]; exact Role.noConfusion)
      rw [role_withRole] at hp
      cases hp
      exact ⟨_, g, rfl, hgrown, hreach⟩
  | full _ hfull he _ => exact .inl ⟨he, hfull⟩

/-- The page of `va` in the address space `r` is mapped by `pte`, and no other leaf has changed. -/
structure Mapped (img : Image) (lay lay' : Layout) (s t : KState) (r va pte : Nat) : Prop where
  paging : Paging img lay' t
  role : ∀ f, lay.role f ≠ .other → lay'.role f = lay.role f
  added : ∀ f, lay.role f = .other → lay'.role f ≠ .other → s.ref f = 0 ∧ Reached lay' t.mem r f
  page : lay'.page = lay.page
  root : lay'.root = lay.root
  ref : ∀ f, img.Ram f → s.ref f ≠ 0 → t.ref f = s.ref f
  free : ∀ f, img.Ram f → s.ref f = 0 → lay'.role f = .other → t.ref f = 0
  frame : ∀ f, (∀ r p, lay'.role f ≠ .table r p) → SameFrame t.mem s.mem f
  inner : InnerKept lay s.mem t.mem
  leaf : ∀ va', va' / 4096 % 2 ^ 27 = va / 4096 % 2 ^ 27 → leafPte t.mem r va' = some pte
  others : ∀ r' va', lay.role r' = .table r' [] → UserVa va' →
    (r' ≠ r ∨ va' / 4096 % 2 ^ 27 ≠ va / 4096 % 2 ^ 27) → leafPte t.mem r' va' = leafPte s.mem r' va'
  tasks : SameTasks s t
  logged : Logged s t fun m => SameUser lay s m ∨ m = t.mem
  sparing : Sparing img s t

theorem Mapped.of_grown {lay' : Layout} {t : KState} {r va l pte : Nat} (hg : Grown img r lay lay' s t)
    (hr : lay.role r = .table r []) (hva : UserVa va)
    (hd : descend pteFormat (tables t.mem) r (path va) = some l) (hlt : pte < 2 ^ 64) (hodd : pte % 2 = 1)
    (hok : LeafOk lay' pte) : Mapped img lay lay' s (t.edit l (vpn va 0) pte) r va pte := by
  have hr' := hg.table hr
  have hl := hg.paging.owned.descend (own_eq_some.mpr hr') (by simp [path]) hva.allowed hd
  rw [List.nil_append, own_eq_some] at hl
  constructor
  case paging => exact hg.paging.edit_leaf hl rfl hlt fun _ => hok
  case role => exact hg.role
  case added =>
    intro f h0 h1
    obtain ⟨hz, p, hp, hlen, hq, hreach⟩ := hg.added f h0 h1
    refine ⟨hz, p, hp, hlen, hq, ?_⟩
    rw [tables_edit hlt, hg.paging.owned.descend_set_leaf (own_eq_some.mpr hl) rfl (own_eq_some.mpr hr')
      (by simpa using hlen) hq]
    exact hreach
  case page => exact hg.page
  case root => exact hg.root
  case ref => exact hg.ref
  case free => exact hg.free
  case frame =>
    intro f hf
    refine (sameFrame_edit ?_).trans (hg.frame f hf)
    rintro rfl
    exact hf _ _ hl
  case inner =>
    refine hg.inner.trans (fun _ _ _ hf => hg.table hf) (.of_same fun f r p hf hp => sameFrame_edit ?_)
    rintro rfl
    rw [hl] at hf
    cases hf
    exact absurd hp (by simp [path])
  case leaf =>
    intro va' hpage
    rw [leafPte_page hpage]
    exact hg.paging.leafPte_edit_self hva hr' hd hlt hodd
  case others =>
    intro r' va' hr2 hva2 hne
    rw [hg.paging.leafPte_edit hl rfl hlt (hg.table hr2) hva2, hg.leaves r' va' hr2 hva2]
    intro he
    simp only [Prod.mk.injEq] at he
    rcases hne with hne | hne
    · exact hne he.1
    · exact hne (page_of_vpn he.2.1 he.2.2)
  case tasks => exact hg.tasks.trans ⟨rfl, rfl, rfl, rfl, rfl, rfl⟩
  case logged => exact (hg.logged.mono fun m hm => .inl hm).trans (.edit (.inr rfl))
  case sparing => exact hg.sparing.trans (.edit (vpn va 0).isLt (hg.paging.table_held hl).2.2)

theorem mapPage_spec (h : Paging img lay s) (hfresh : fresh → Fresh img s) {r va pa perm f : Nat} (hr : lay.role r = .table r [])
    (hva : UserVa va) (hf : lay.role f = .data) (hpa : pa = f * 4096) (hperm : perm < 32)
    (hv : perm % 2 = 1) (hu : perm.testBit PTE_U = true) :
    Spec fresh (mapPage img (framePtr r) va pa perm) s
      (fun _ t => ∃ lay', Mapped img lay lay' s t r va (2 ^ 10 * f + perm))
      fun e t => e = .null ∧ OutOfPages img t := by
  have hram := (h.held f (by rw [hf]; exact Role.noConfusion)).1
  have hbound := hram.bounds
  have hroot := nextTable_grown (k := vpn va 2) h hfresh hr (b := []) (x := r) (by simp) trivial rfl fun _ => hva
  refine Spec.bind (hroot.mono (fun _ _ hp => hp) fun _ _ hno => hno.elim)
    (fun _ => grows_last (grows_nextTable ..) fun _ => grows_storeEntry ..) ?_
  rintro p t (⟨rfl, hfull⟩ | ⟨lay₁, y, rfl, hg₁, hd₁⟩)
  · refine Spec.bind (P := fun _ _ => False) ?_ (fun _ => grows_storeEntry ..) fun _ _ hno => hno.elim
    rw [nextTable]
    refine ends_bind.mpr (ends_loadEntry_zero.mpr fun _ => ⟨rfl, hfull⟩)
  · have hlast := nextTable_grown (k := vpn va 1) hg₁.paging (fun hf => hg₁.sparing.fresh (hfresh hf)) (hg₁.table hr) (b := [vpn va 2]) (x := y)
      (by simp) ⟨fun _ => hva, trivial⟩ hd₁ fun hne => by cases hne
    refine Spec.bind (hlast.mono (fun _ _ hp => hp) fun _ _ hno => hno.elim) (fun _ => grows_storeEntry ..) ?_
    rintro q u (⟨rfl, hfull⟩ | ⟨lay₂, l, rfl, hg₂, hd₂⟩)
    · exact ends_storeEntry_zero.mpr fun _ => ⟨rfl, hfull⟩
    · have hg := hg₁.trans h hg₂
      have hl := hg.paging.owned.descend (own_eq_some.mpr (hg.table hr)) (by simp [path]) hva.allowed hd₂
      have hlram := hg.paging.table_ram (own_eq_some.mp hl)
      have hpte : mkPte pa perm = 2 ^ 10 * f + perm :=
        mkPte_eq (o := 0) (by omega) (by omega) (by omega) (hpa.trans (Nat.add_zero _).symm)
      rw [hpte]
      refine (ends_storeEntry hlram (VPN_lt va 0)).mpr fun _ => ⟨lay₂, ?_⟩
      refine .of_grown hg hr hva hd₂ (by omega) (by omega) ⟨?_, ?_, ?_⟩
      · rw [pteFrame_mk (by omega), hg.role f (by rw [hf]; exact Role.noConfusion), hf]
      · rw [pteFlags_mk (by omega)]
        exact hperm
      · rw [testBit_pteFlags (by decide), pteFlags_mk (by omega)]
        exact hu

/-- `create_mapping` of a single page. -/
theorem createMapping_page {r va pa perm : Nat} :
    createMapping img (framePtr r) va pa PGSIZE perm =
      (do mapPage img (framePtr r) va pa perm; return ()) := rfl

theorem createMapping_spec (h : Paging img lay s) (hfresh : fresh → Fresh img s) {r va pa perm f : Nat} (hr : lay.role r = .table r [])
    (hva : UserVa va) (hf : lay.role f = .data) (hpa : pa = f * 4096) (hperm : perm < 32)
    (hv : perm % 2 = 1) (hu : perm.testBit PTE_U = true) :
    Spec fresh (createMapping img (framePtr r) va pa PGSIZE perm) s
      (fun _ t => ∃ lay', Mapped img lay lay' s t r va (2 ^ 10 * f + perm))
      fun e t => e = .null ∧ OutOfPages img t := by
  rw [createMapping_page]
  exact Spec.bind (mapPage_spec h hfresh hr hva hf hpa hperm hv hu) (fun _ => grows_pure (k := 0) _) fun _ _ hm => .pure hm

end Mapping

end ZjuOs
