import Mathlib.Data.Finset.Card
import Mathlib.Data.Finset.Range
import ZjuOs.Pte

/-!
The trace of a run only grows. So an assumption on the tables handed out by the end of a run holds at
every point of it, and a specification may use it at each step.
-/
namespace ZjuOs
open Memory Exec

/-- Number of pages with a reference. -/
def Buddy.inUse (b : Buddy) : Nat := ((Finset.range b.size).filter fun p => b.refCnt p ≠ 0).card

/-- From `s` to `t` events have been added, none has been dropped, and at most `k` pages were handed out. -/
structure Within (k : Nat) (s t : KState) : Prop where
  trace : s.trace <:+ t.trace
  size : t.buddy.size = s.buddy.size
  inUse : t.buddy.inUse ≤ s.buddy.inUse + k

section Within
variable {s t u : KState} {b : Buddy} {j k n p : Nat}

theorem Within.of_eq (ht : t.trace = s.trace) (hb : t.buddy = s.buddy) : Within 0 s t :=
  ⟨ht ▸ List.suffix_refl _, by rw [hb], by rw [hb, Nat.add_zero]⟩

theorem Within.trans (h : Within j s t) (h' : Within k t u) (hn : j + k ≤ n) : Within n s u :=
  ⟨h.trace.trans h'.trace, h'.size.trans h.size, by have := h.inUse; have := h'.inUse; omega⟩

theorem Within.mono (h : Within j s t) (hk : j ≤ k) : Within k s t :=
  ⟨h.trace, h.size, h.inUse.trans (Nat.add_le_add_left hk _)⟩

/-- No page gets its first reference. -/
theorem Within.of_counts (hsize : b.size = s.buddy.size) (h : ∀ p, s.buddy.refCnt p = 0 → b.refCnt p = 0) :
    Within 0 s (s.withBuddy b) := by
  refine ⟨List.suffix_refl _, hsize, ?_⟩
  rw [KState.withBuddy_buddy, Buddy.inUse, Buddy.inUse, hsize]
  exact Finset.card_le_card (Finset.monotone_filter_right _ fun p _ hp h0 => hp (h p h0))

theorem within_pageRefInc (h : s.buddy.refCnt p ≠ 0) : Within 0 s (s.withBuddy (pageRefInc s.buddy p)) := by
  refine .of_counts rfl fun q hq => ?_
  have hqp : q ≠ p := by
    rintro rfl
    exact h hq
  exact (Function.update_of_ne hqp ..).trans hq

theorem buddyFree_counts (b : Buddy) (p : Nat) : (buddyFree b p).size = b.size ∧ (buddyFree b p).refCnt = b.refCnt := by
  rw [buddyFree]
  split <;> exact ⟨rfl, rfl⟩

theorem within_pageRefDec : Within 0 s (s.withBuddy (pageRefDec s.buddy p)) := by
  -- freeing a block leaves the counts
  have hlast : ∀ c : Buddy, c.size = s.buddy.size → (∀ q, s.buddy.refCnt q = 0 → c.refCnt q = 0) →
      Within 0 s (s.withBuddy (if c.refCnt p = 0 then buddyFree c p else c)) := by
    intro c hsize hc
    obtain ⟨hfree, hcount⟩ := buddyFree_counts c p
    split
    · exact .of_counts (hfree.trans hsize) fun q hq => by rw [hcount]; exact hc q hq
    · exact .of_counts hsize hc
  refine hlast _ ?_ fun q hq => ?_
  · split <;> rfl
  · split
    · by_cases hqp : q = p
      · subst hqp
        exact (Function.update_self ..).trans (by omega)
      · exact (Function.update_of_ne hqp ..).trans hq
    · exact hq

theorem within_buddyAlloc (h : buddyAlloc s.buddy n = some (p, b)) : Within 1 s (s.withBuddy b) := by
  simp only [buddyAlloc] at h
  generalize (if n ≤ 0 then 1 else if (!isPowerOf2 n) = true then fixsize n else n) = m at h
  split at h
  · cases h
    exact (Within.of_eq rfl rfl).mono (Nat.zero_le 1)
  · split at h
    · cases h
    · next index nodeSize _ =>
        generalize ((index + 1) * nodeSize + (2 ^ 64 - s.buddy.size)) % 2 ^ 64 = pfn at h
        cases h
        refine ⟨List.suffix_refl _, rfl, ?_⟩
        refine (Finset.card_le_card ?_).trans (Finset.card_insert_le p _)
        intro q hq
        rw [Finset.mem_filter] at hq
        by_cases hqp : q = p
        · exact Finset.mem_insert.mpr (.inl hqp)
        · refine Finset.mem_insert.mpr (.inr (Finset.mem_filter.mpr ⟨hq.1, ?_⟩))
          have hsame : Function.update s.buddy.refCnt p 1 q = s.buddy.refCnt q := Function.update_of_ne hqp ..
          exact hsame ▸ hq.2

end Within

/-- Every run of the computation stays within `k` pages. -/
structure Grows {α : Type} (k : Nat) (x : K α) : Prop where
  run : ∀ s, Ends x s (fun _ t => Within k s t) fun _ t => Within k s t

section Closure
variable {α β : Type} {j k n : Nat}

theorem Grows.mono {x : K α} (h : Grows j x) (hk : j ≤ k) : Grows k x :=
  ⟨fun s => (h.run s).mono (fun _ _ hw => hw.mono hk) fun _ _ hw => hw.mono hk⟩

@[simp] theorem grows_pure (a : α) : Grows k (pure a : K α) :=
  ⟨fun _ => ends_pure.mpr ((Within.of_eq rfl rfl).mono (Nat.zero_le k))⟩

@[simp] theorem grows_throw (e : Halt) : Grows k (throw e : K α) :=
  ⟨fun _ => ends_throw.mpr ((Within.of_eq rfl rfl).mono (Nat.zero_le k))⟩

@[simp] theorem grows_get : Grows 0 (get : K KState) :=
  ⟨fun _ => ends_get.mpr (.of_eq rfl rfl)⟩

theorem grows_modify {f : KState → KState} (h : ∀ s, Within k s (f s)) :
    Grows k (modify f : K PUnit) := ⟨fun s => ends_modify.mpr (h s)⟩

/-- The pages of both parts add up. -/
theorem grows_add {x : K α} {f : α → K β} (hx : Grows j x) (hf : ∀ a, Grows k (f a)) (hn : j + k ≤ n) :
    Grows n (x >>= f) := by
  refine ⟨fun s => ?_⟩
  rw [ends_bind]
  have hk : k ≤ n := (Nat.le_add_left k j).trans hn
  refine (hx.run s).mono (fun a t h => ?_) fun e t h => h.mono ((Nat.le_add_right j k).trans hn)
  exact ((hf a).run t).mono (fun b u h' => h.trans h' hn) fun e u h' => h.trans h' hn

/-- The first part takes no page. -/
@[simp] theorem grows_bind {x : K α} {f : α → K β} (hx : Grows 0 x) (hf : ∀ a, Grows k (f a)) :
    Grows k (x >>= f) := grows_add hx hf (Nat.zero_add k).le

/-- The second part takes no page. -/
theorem grows_last {x : K α} {f : α → K β} (hx : Grows k x) (hf : ∀ a, Grows 0 (f a)) :
    Grows k (x >>= f) := grows_add hx hf le_rfl

@[simp] theorem grows_map {x : K α} (hx : Grows k x) (f : α → β) : Grows k (f <$> x) := by
  refine ⟨fun s => ?_⟩
  rw [ends_map]
  exact hx.run s

@[simp] theorem grows_ite {c : Prop} [Decidable c] {x y : K α} (hx : Grows k x) (hy : Grows k y) :
    Grows k (if c then x else y) := by
  split
  · exact hx
  · exact hy

@[simp] theorem grows_withMem (f : KState → Mem) : Grows 0 (modify fun s => s.withMem (f s) : K PUnit) :=
  grows_modify fun _ => .of_eq rfl rfl

@[simp] theorem grows_log (f : KState → Event) : Grows 0 (modify fun s => s.log (f s) : K PUnit) :=
  grows_modify fun _ => ⟨List.suffix_cons _ _, rfl, Nat.le_refl _⟩

/-- Every run of the computation logs behind what is there, whatever the number of pages it takes. -/
structure Trails {α : Type} (x : K α) : Prop where
  run : ∀ s, Ends x s (fun _ t => s.trace <:+ t.trace) fun _ t => s.trace <:+ t.trace

theorem Grows.trails {x : K α} (h : Grows k x) : Trails x :=
  ⟨fun s => (h.run s).mono (fun _ _ hw => hw.trace) fun _ _ hw => hw.trace⟩

theorem trails_bind {x : K α} {f : α → K β} (hx : Trails x) (hf : ∀ a, Trails (f a)) : Trails (x >>= f) :=
  ⟨fun s => ends_bind.mpr ((hx.run s).mono
    (fun a t h => ((hf a).run t).mono (fun _ _ h' => h.trans h') fun _ _ h' => h.trans h') fun _ _ h => h)⟩

end Closure

section Machine
variable {img : Image}

@[simp] theorem grows_kernelPa (bit va : Nat) : Grows 0 (kernelPa img bit va) := by
  refine grows_ite (grows_pure _) (grows_bind grows_get fun s => ?_)
  split
  · exact grows_ite (grows_pure _) (grows_throw _)
  · exact grows_throw _

@[simp] theorem grows_loadWord (va : Nat) : Grows 0 (loadWord img va) := by simp [loadWord]

@[simp] theorem grows_storeWord (va v : Nat) : Grows 0 (storeWord img va v) := by simp [storeWord]

@[simp] theorem grows_loadByte (va : Nat) : Grows 0 (loadByte img va) := by simp [loadByte]

@[simp] theorem grows_storeByte (va : Nat) (c : UInt8) : Grows 0 (storeByte img va c) := by simp [storeByte]

@[simp] theorem grows_notNull (p : Nat) : Grows 0 (notNull p) := by simp [notNull]

@[simp] theorem grows_memset (dest : Nat) (c : UInt8) (n : Nat) : Grows 0 (memset img dest c n) := by
  induction n generalizing dest with
  | zero => simp [memset]
  | succ n ih => simp [memset, ih]

@[simp] theorem grows_memcpy (dest source n : Nat) : Grows 0 (memcpy img dest source n) := by
  induction n generalizing dest source with
  | zero => simp [memcpy]
  | succ n ih => simp [memcpy, ih]

@[simp] theorem grows_sfenceVma : Grows 0 sfenceVma := by simp [sfenceVma]

@[simp] theorem grows_allocPage : Grows 1 allocPage := by
  refine ⟨fun s => ends_bind.mpr (ends_get.mpr ?_)⟩
  cases halloc : buddyAlloc s.buddy 1 with
  | none => exact ends_throw.mpr ((Within.of_eq rfl rfl).mono (Nat.zero_le 1))
  | some x =>
      exact ends_bind.mpr (ends_modify.mpr (ends_pure.mpr (within_buddyAlloc halloc)))

@[simp] theorem grows_kalloc : Grows 1 kalloc := grows_allocPage

@[simp] theorem grows_getPage (va : Nat) : Grows 0 (getPage va) := by
  refine ⟨fun s => ends_bind.mpr (ends_get.mpr ?_)⟩
  by_cases h : s.buddy.refCnt (PHYS2PFN (VA2PA va)) = 0
  · rw [if_pos h]
    exact ends_pure.mpr (.of_eq rfl rfl)
  · rw [if_neg h]
    exact ends_bind.mpr (ends_modify.mpr (ends_pure.mpr (within_pageRefInc h)))

@[simp] theorem grows_putPage (va : Nat) : Grows 0 (putPage va) :=
  grows_modify fun _ => within_pageRefDec

@[simp] theorem grows_getPageRefcnt (va : Nat) : Grows 0 (getPageRefcnt va) := by simp [getPageRefcnt]

end Machine

section PageTables
variable {img : Image}

@[simp] theorem grows_loadEntry (ptr i : Nat) : Grows 0 (loadEntry img ptr i) := by simp [loadEntry]

@[simp] theorem grows_storeEntry (ptr i v : Nat) : Grows 0 (storeEntry img ptr i v) := by
  refine grows_bind (grows_notNull _) fun _ => grows_bind (grows_kernelPa _ _) fun _ => grows_modify fun s => ?_
  exact ⟨List.suffix_cons _ _, rfl, Nat.le_refl _⟩

theorem grows_nextTable (ptr i : Nat) : Grows 1 (nextTable img ptr i) :=
  grows_bind (grows_loadEntry ..) fun _ =>
    grows_ite
      (grows_last grows_kalloc fun _ => grows_bind (grows_log _) fun _ =>
        grows_bind (grows_storeEntry ..) fun _ => grows_pure _)
      (grows_pure _)

theorem grows_mapPage (pgtbl va pa perm : Nat) : Grows 2 (mapPage img pgtbl va pa perm) :=
  grows_add (grows_nextTable ..) (fun _ => grows_last (grows_nextTable ..) fun _ => grows_storeEntry ..) le_rfl

theorem grows_mapPages (pgtbl perm n va pa : Nat) : Grows (2 * n) (mapPages img pgtbl perm n va pa) := by
  induction n generalizing va pa with
  | zero => exact grows_pure _
  | succ n ih => exact grows_add (grows_mapPage ..) (fun _ => ih _ _) (by omega)

/-- A mapping of one page. -/
theorem grows_createMapping (pgtbl va pa perm : Nat) : Grows 2 (createMapping img pgtbl va pa PGSIZE perm) :=
  grows_mapPages pgtbl perm 1 va pa

@[simp] theorem grows_walkTables (va j ptr : Nat) : Grows 0 (walkTables img va j ptr) := by
  induction j generalizing ptr with
  | zero => simp [walkTables]
  | succ j ih => simp [walkTables, ih]

@[simp] theorem grows_checkValid (va pgd : Nat) : Grows 0 (checkValid img va pgd) := by
  refine grows_bind (grows_walkTables ..) fun o => ?_
  cases o with
  | none => exact grows_pure _
  | some ptr => exact grows_bind (grows_loadEntry ..) fun _ => grows_pure _

@[simp] theorem grows_leafTable (va j ptr : Nat) : Grows 0 (leafTable img va j ptr) := by
  induction j generalizing ptr with
  | zero => simp [leafTable]
  | succ j ih => simp [leafTable, ih]

end PageTables

section Kernel
variable {img : Image}

@[simp] theorem grows_findVma (mm addr : Nat) : Grows 0 (findVma img mm addr) := by
  refine grows_bind (grows_loadWord _) fun mmap => grows_bind grows_get fun s => ?_
  split
  · exact grows_pure _
  · exact grows_throw _

theorem grows_doMmap (mm addr len pgoff filesz flags : Nat) :
    Grows 1 (doMmap img mm addr len pgoff filesz flags) :=
  grows_last grows_allocPage fun _ => grows_bind (grows_notNull _) fun _ =>
    grows_bind (grows_loadWord _) fun _ => grows_bind (grows_modify fun _ => .of_eq rfl rfl) fun _ =>
      grows_bind (grows_storeWord ..) fun _ => grows_pure _

theorem grows_demandPage (area : VmArea) (page va : Nat) : Grows 2 (demandPage img area page va) :=
  grows_bind grows_get fun _ => grows_bind (grows_loadWord _) fun _ =>
    grows_last (grows_createMapping ..) fun _ => grows_ite (grows_memcpy ..) (grows_pure _)

theorem grows_cowCopy (ptrp pte va : Nat) : Grows 3 (cowCopy img ptrp pte va) :=
  grows_bind (grows_putPage _) fun _ =>
    grows_add grows_allocPage (fun _ =>
      grows_bind (grows_notNull _) fun _ => grows_bind (grows_memset ..) fun _ =>
        grows_bind (grows_memcpy ..) fun _ => grows_bind (grows_loadEntry ..) fun _ =>
          grows_bind grows_sfenceVma fun _ => grows_bind grows_get fun _ =>
            grows_bind (grows_loadWord _) fun _ => grows_createMapping ..) le_rfl

theorem grows_cowPage (scause flags va : Nat) : Grows 3 (cowPage img scause flags va) :=
  grows_bind grows_get fun _ => grows_bind (grows_loadWord _) fun _ =>
    grows_bind (grows_leafTable ..) fun _ => grows_bind (grows_loadEntry ..) fun _ =>
      grows_bind (grows_getPageRefcnt _) fun _ =>
        grows_ite (grows_ite ((grows_storeEntry ..).mono (Nat.zero_le 3)) (grows_cowCopy ..)) (grows_throw _)

theorem grows_doPageFault (regs : PtRegs) : Grows 4 (doPageFault img regs) := by
  refine grows_bind grows_get fun _ => grows_bind (grows_findVma ..) fun _ =>
    grows_ite (grows_throw _) (grows_bind grows_get fun _ => grows_ite (grows_throw _) ?_)
  refine grows_add (k := 3) grows_allocPage (fun _ => ?_) le_rfl
  exact grows_bind (grows_notNull _) fun _ =>
    grows_bind (grows_memset ..) fun _ => grows_bind grows_get fun _ =>
      grows_bind (grows_loadWord _) fun _ => grows_bind (grows_checkValid ..) fun _ =>
        grows_ite ((grows_demandPage ..).mono (Nat.le_succ 2)) (grows_cowPage ..)

@[simp] theorem grows_takeSlot (child : Nat) : Grows 0 (takeSlot child) := by
  refine grows_bind grows_get fun s => ?_
  split
  · exact grows_pure _
  · exact grows_bind (grows_modify fun _ => .of_eq rfl rfl) fun _ => grows_pure _

theorem grows_sharePage (child va : Nat) : Grows 2 (sharePage img child va) :=
  grows_bind grows_get fun _ => grows_bind (grows_loadWord _) fun _ =>
    grows_bind (grows_leafTable ..) fun _ => grows_bind (grows_loadEntry ..) fun _ =>
      grows_bind (grows_storeEntry ..) fun _ => grows_bind (grows_loadEntry ..) fun _ =>
        grows_bind (grows_getPage _) fun _ => grows_bind (grows_loadEntry ..) fun _ =>
          grows_bind (grows_loadWord _) fun _ => grows_createMapping ..

/-- The loops are bounded by their fuel alone; how often they visit a page depends on the state. -/
theorem grows_forValidPages {visit : Nat → K Unit} {k : Nat} (h : ∀ va, Grows k (visit va)) (fuel va stop : Nat) :
    Grows (k * fuel) (forValidPages img visit fuel va stop) := by
  induction fuel generalizing va with
  | zero => exact grows_throw _
  | succ fuel ih =>
      have hle : k + k * fuel ≤ k * (fuel + 1) := by rw [Nat.mul_succ, Nat.add_comm]
      rw [forValidPages]
      refine grows_ite ?_ (grows_pure _)
      exact grows_bind grows_get fun _ => grows_bind (grows_loadWord _) fun _ =>
        grows_bind (grows_checkValid ..) fun _ =>
          grows_ite (grows_add (h va) (fun _ => ih _) hle) ((ih _).mono (Nat.mul_le_mul_left k (Nat.le_succ fuel)))

theorem grows_forAreas {visit : VmArea → K Unit} {k : Nat} (h : ∀ a, Grows k (visit a)) (fuel ptr : Nat) :
    Grows (k * fuel) (forAreas visit fuel ptr) := by
  induction fuel generalizing ptr with
  | zero => exact grows_throw _
  | succ fuel ih =>
      have hle : k + k * fuel ≤ k * (fuel + 1) := by rw [Nat.mul_succ, Nat.add_comm]
      rw [forAreas]
      refine grows_ite (grows_pure _) (grows_bind grows_get fun _ => grows_add (h _) (fun _ => ?_) hle)
      exact grows_bind grows_get fun _ => ih _

theorem grows_cowChild (regs : Nat) : Grows 2 (cowChild img regs) := by
  refine grows_add (k := 1) grows_allocPage (fun _ => grows_bind (grows_notNull _) fun _ =>
    grows_bind (grows_memset ..) fun _ => grows_bind grows_get fun _ => grows_bind (grows_memcpy ..) fun _ =>
      grows_bind (grows_takeSlot _) fun o => ?_) le_rfl
  cases o with
  | none => exact grows_pure _
  | some pid =>
      exact grows_bind (grows_storeWord ..) fun _ => grows_bind (grows_storeWord ..) fun _ =>
        grows_bind (grows_storeWord ..) fun _ => grows_bind (grows_loadWord _) fun _ => grows_bind grows_get fun _ =>
          grows_bind (grows_storeWord ..) fun _ => grows_bind (grows_storeWord ..) fun _ =>
            grows_bind (grows_loadWord _) fun _ => grows_bind (grows_storeWord ..) fun _ =>
              grows_last grows_allocPage fun _ => grows_bind (grows_storeWord ..) fun _ =>
                grows_bind (grows_notNull _) fun _ => grows_bind (grows_memcpy ..) fun _ => grows_pure _

theorem grows_doCowFork (regs : Nat) : Grows (2 + 2 * 2 ^ 52 * 2 ^ 64) (doCowFork img regs) := by
  refine grows_add (grows_cowChild regs) (fun o => ?_) le_rfl
  cases o with
  | none => exact grows_pure _
  | some x =>
      exact grows_bind grows_get fun _ => grows_bind (grows_loadWord _) fun _ =>
        grows_last (grows_forAreas (fun _ => grows_forValidPages (fun _ => grows_sharePage ..) ..) ..) fun _ =>
          grows_bind grows_sfenceVma fun _ => grows_pure _

@[simp] theorem grows_switchTo (next : Nat) : Grows 0 (switchTo img next) :=
  grows_bind grows_get fun _ => grows_ite (grows_pure _)
    (grows_bind (grows_modify fun _ => .of_eq rfl rfl) fun _ => grows_bind (grows_loadWord _) fun _ =>
      grows_bind (grows_modify fun _ => .of_eq rfl rfl) fun _ => grows_sfenceVma)

end Kernel

section Logged

/-- From `s` to `t` no fence was executed, and the memory after each edit is in `P`. -/
def Logged (s t : KState) (P : Mem → Prop) : Prop :=
  ∃ evs, t.trace = evs ++ s.trace ∧
    ∀ e ∈ evs, (∃ page m, e = .table page m) ∨ ∃ pa m, e = .edit pa m ∧ P m

variable {s t u : KState} {P Q : Mem → Prop}

theorem Logged.of_trace_eq (h : t.trace = s.trace) : Logged s t P :=
  ⟨[], by simpa using h, fun e he => by cases he⟩

theorem Logged.refl (s : KState) : Logged s s P := .of_trace_eq rfl

theorem Logged.trans (h : Logged s t P) (h' : Logged t u P) : Logged s u P := by
  obtain ⟨evs, he, hall⟩ := h
  obtain ⟨evs', he', hall'⟩ := h'
  refine ⟨evs' ++ evs, by rw [he', he, List.append_assoc], fun e hmem => ?_⟩
  rcases List.mem_append.mp hmem with hmem | hmem
  · exact hall' e hmem
  · exact hall e hmem

theorem Logged.mono (h : Logged s t P) (hP : ∀ m, P m → Q m) : Logged s t Q := by
  obtain ⟨evs, he, hall⟩ := h
  refine ⟨evs, he, fun e hmem => (hall e hmem).imp_right ?_⟩
  rintro ⟨pa, m, hem, hm⟩
  exact ⟨pa, m, hem, hP m hm⟩

theorem Logged.table (page : Nat) (m : Mem) : Logged s (s.log (.table page m)) P :=
  ⟨[_], rfl, fun _ he => .inl ⟨page, m, List.mem_singleton.mp he⟩⟩

theorem Logged.edit {f i v : Nat} (h : P (s.edit f i v).mem) : Logged s (s.edit f i v) P :=
  ⟨[_], rfl, fun _ he => .inr ⟨_, _, List.mem_singleton.mp he, h⟩⟩

end Logged

section Clean

/-- Frames handed out as tables hold no valid entry, as zero-filled frames do not. -/
def TablesClean (trace : List Event) : Prop :=
  ∀ page m, .table page m ∈ trace → ∀ i, i < 512 → ld 8 m (VA2PA page + 8 * i) % 2 = 0

theorem TablesClean.suffix {l l' : List Event} (h : TablesClean l') (hs : l <:+ l') : TablesClean l :=
  fun page m hm => h page m (hs.subset hm)

/-- The frames that are free hold no valid entry. -/
def Fresh (img : Image) (s : KState) : Prop := ∀ f, img.Ram f → s.ref f = 0 → ∀ i, i < 512 → entry s.mem f i % 2 = 0

/-- No frame has been freed, the frames that are still free are as they were, and the new tables were free. -/
structure Sparing (img : Image) (s t : KState) : Prop where
  unused : ∀ f, img.Ram f → t.ref f = 0 → s.ref f = 0 ∧ SameFrame t.mem s.mem f
  tables : ∀ page m, .table page m ∈ t.trace → .table page m ∈ s.trace ∨
    ∃ g, img.Ram g ∧ page = framePtr g ∧ s.ref g = 0 ∧ SameFrame m s.mem g

section Sparing
variable {img : Image} {s t u : KState} {f g n : Nat} {m : Mem}

theorem Sparing.refl (s : KState) : Sparing img s s := ⟨fun _ _ h0 => ⟨h0, .refl _ _⟩, fun _ _ h => .inl h⟩

theorem Sparing.trans (h : Sparing img s t) (h' : Sparing img t u) : Sparing img s u := by
  constructor
  · intro f hf h0
    obtain ⟨ht, hsame⟩ := h'.unused f hf h0
    obtain ⟨hs, hsame'⟩ := h.unused f hf ht
    exact ⟨hs, hsame.trans hsame'⟩
  · intro page m hm
    rcases h'.tables page m hm with hold | ⟨g, hg, hpage, hfree, hsame⟩
    · exact h.tables page m hold
    · obtain ⟨hs, hsame'⟩ := h.unused g hg hfree
      exact .inr ⟨g, hg, hpage, hs, hsame.trans hsame'⟩

/-- Frames in use have been written. -/
theorem Sparing.withMem (h : ∀ f, img.Ram f → s.ref f = 0 → SameFrame m s.mem f) : Sparing img s (s.withMem m) :=
  ⟨fun f hf h0 => ⟨h0, h f hf h0⟩, fun _ _ he => .inl he⟩

theorem Sparing.edit {i v : Nat} (hi : i < 512) (h : s.ref f ≠ 0) : Sparing img s (s.edit f i v) := by
  constructor
  · intro g _ h0
    refine ⟨h0, sameFrame_setEntry hi ?_⟩
    rintro rfl
    exact h h0
  · intro page m hm
    rcases List.mem_cons.mp hm with he | he
    · cases he
    · exact .inl he

theorem Sparing.fence (m : Mem) : Sparing img s (s.log (.fence m)) := by
  refine ⟨fun f hf h0 => ⟨h0, .refl _ _⟩, fun page m hm => ?_⟩
  rcases List.mem_cons.mp hm with he | he
  · cases he
  · exact .inl he

theorem Taken.sparing (ht : Taken img s t g) : Sparing img s t := by
  obtain ⟨b, rfl⟩ := ht.rest
  refine ⟨fun f hf h0 => ⟨?_, .refl _ _⟩, fun _ _ he => .inl he⟩
  have hfg : f ≠ g := by
    rintro rfl
    rw [ht.taken] at h0
    cases h0
  rw [← ht.others f hf hfg, h0]

theorem Recounted.sparing (ht : Recounted img s t f n) (hn : n ≠ 0) : Sparing img s t := by
  obtain ⟨hcount, hothers, -, b, rfl⟩ := ht
  refine ⟨fun g hg h0 => ⟨?_, .refl _ _⟩, fun _ _ he => .inl he⟩
  have hgf : g ≠ f := by
    rintro rfl
    exact hn (hcount.symm.trans h0)
  rw [← hothers g hg hgf, h0]

theorem Sparing.fresh (h : Sparing img s t) (hs : Fresh img s) : Fresh img t := fun f hf h0 i hi => by
  obtain ⟨hfree, hsame⟩ := h.unused f hf h0
  rw [hsame.entry hi]
  exact hs f hf hfree i hi

theorem Sparing.clean (h : Sparing img s t) (hs : Fresh img s) (hc : TablesClean s.trace) : TablesClean t.trace := by
  intro page m hm i hi
  rcases h.tables page m hm with hold | ⟨g, hg, hpage, hfree, hsame⟩
  · exact hc page m hold i hi
  · have heven := hs g hg hfree i hi
    rw [← hsame.entry hi, entry] at heven
    rw [hpage, VA2PA_page hg]
    exact heven

end Sparing

/-- `Ends`, for runs that are only handed clean tables, or, when `fresh` holds, for all runs. -/
def Spec (fresh : Prop) {α : Type} (x : K α) (s : KState) (P : α → KState → Prop) (E : Halt → KState → Prop) : Prop :=
  Ends x s (fun a t => fresh ∨ TablesClean t.trace → P a t) fun e t => fresh ∨ TablesClean t.trace → E e t

variable {fresh : Prop} {α β : Type} {s : KState} {x : K α} {P P' : α → KState → Prop} {E E' : Halt → KState → Prop}

theorem Spec.of_ends (h : Ends x s P E) : Spec fresh x s P E := h.mono (fun _ _ h _ => h) fun _ _ h _ => h

theorem Spec.mono (h : Spec fresh x s P E) (hP : ∀ a t, P a t → P' a t) (hE : ∀ e t, E e t → E' e t) :
    Spec fresh x s P' E' := Ends.mono h (fun a t h hc => hP a t (h hc)) fun e t h hc => hE e t (h hc)

theorem Spec.bind {f : α → K β} {R : β → KState → Prop} {k : Nat} (hx : Spec fresh x s P E) (hg : ∀ a, Grows k (f a))
    (hf : ∀ a t, P a t → Spec fresh (f a) t R E) : Spec fresh (x >>= f) s R E := by
  refine (ends_bind (x := x) (f := f)).mpr (Ends.mono hx (fun a t ha => ?_) fun e t he => he)
  by_cases hc : fresh ∨ TablesClean t.trace
  · exact hf a t (ha hc)
  · exact ((hg a).run t).mono (fun b u hs hu => absurd (hu.imp_right fun h => h.suffix hs.trace) hc)
      fun e u hs hu => absurd (hu.imp_right fun h => h.suffix hs.trace) hc

theorem Spec.and (h : Spec fresh x s P E) (h' : Spec fresh x s P' E') :
    Spec fresh x s (fun a t => P a t ∧ P' a t) fun e t => E e t ∧ E' e t :=
  (Ends.and h h').mono (fun _ _ h hc => ⟨h.1 hc, h.2 hc⟩) fun _ _ h hc => ⟨h.1 hc, h.2 hc⟩

/-- A specification holds with the pages that were handed out. -/
theorem Spec.within {k : Nat} (hx : Spec fresh x s P E) (hg : Grows k x) :
    Spec fresh x s (fun a t => P a t ∧ Within k s t) fun e t => E e t ∧ Within k s t :=
  (Ends.and hx (hg.run s)).mono (fun _ _ h hc => ⟨h.1 hc, h.2⟩) fun _ _ h hc => ⟨h.1 hc, h.2⟩

theorem Spec.pure {a : α} (h : P a s) : Spec fresh (Pure.pure a : K α) s P E := ends_pure.mpr fun _ => h

theorem Spec.throw {e : Halt} (h : E e s) : Spec fresh (MonadExcept.throw e : K α) s P E := ends_throw.mpr fun _ => h

end Clean

end ZjuOs
