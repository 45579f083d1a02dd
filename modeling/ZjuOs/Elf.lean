import ZjuOs.Boot

/-! `VMA_init`: the list of areas that a task gets from the program headers of the ramdisk. -/
namespace ZjuOs
open Memory Exec Radix

/-- The `n` bytes from `va` belong to the kernel image, which holds the ramdisk. -/
def Image.Holds (img : Image) (va n : Nat) : Prop := VM_START ≤ va ∧ va + n ≤ img.ekernel

/-- The program header at the physical address `a`. -/
def phdrAt (m : Mem) (a : Nat) : Elf64Phdr where
  p_type := ld 4 m a
  p_flags := ld 4 m (a + 4)
  p_offset := ld 8 m (a + 8)
  p_vaddr := ld 8 m (a + 16)
  p_filesz := ld 8 m (a + 32)
  p_memsz := ld 8 m (a + 40)

/-- What `do_mmap` is given for an area. -/
structure Segment where
  start : Nat
  len : Nat
  pgoff : Nat
  filesz : Nat
  flags : Nat

/-- The area holds what `do_mmap` was given. -/
def Segment.At (g : Segment) (a : VmArea) : Prop :=
  a.vm_start = g.start ∧ a.vm_end = (g.start + g.len) % 2 ^ 64 ∧ a.vm_pgoff = g.pgoff ∧
    a.vm_filesz = g.filesz ∧ a.vm_flags = g.flags

def Elf64Phdr.segment (p : Elf64Phdr) : Segment :=
  ⟨p.p_vaddr, p.p_memsz, p.p_offset, p.p_filesz, segmentPerm p.p_flags⟩

/-- The user stack. -/
def stackSegment : Segment := ⟨USER_END - PGSIZE, PGSIZE, 0, 0, 0x7⟩

/-- The loadable segments among the `n` headers from `a`, the last one first. -/
def segments (m : Mem) : Nat → Nat → List Segment
  | 0, _ => []
  | n + 1, a =>
      segments m n (a + 56) ++ if (phdrAt m a).p_type = PT_LOAD then [(phdrAt m a).segment] else []

/-- The areas that the ELF file at `img.sramdisk` asks for, in list order. -/
def elfSegments (img : Image) (m : Mem) : List Segment :=
  stackSegment :: segments m (ld 2 m (VA2PA img.sramdisk + 56)) (VA2PA img.sramdisk + ld 8 m (VA2PA img.sramdisk + 32))

/-- The ELF header and the program headers lie in the kernel image. -/
def ElfInside (img : Image) (m : Mem) : Prop :=
  img.Holds img.sramdisk 64 ∧ img.Holds (img.sramdisk + ld 8 m (VA2PA img.sramdisk + 32))
    (56 * ld 2 m (VA2PA img.sramdisk + 56))

section Fields
variable {img : Image} {s : KState} {va n k : Nat}

theorem Image.Holds.mono (h : img.Holds va n) {o : Nat} (ho : o + k ≤ n) : img.Holds (va + o) k :=
  ⟨h.1.trans (Nat.le_add_right _ _), by have := h.2; omega⟩

theorem Image.Holds.direct (h : img.Holds va n) (hk : k < n) :
    (va + k) % 2 ^ 64 = va + k ∧ img.inDirectMap (va + k) = true ∧ VA2PA (va + k) = VA2PA va + k := by
  obtain ⟨hlo, hhi⟩ := h
  have hend := img.ekernel_le
  have hroom := img.room
  refine ⟨by omega, ?_, ?_⟩
  · rw [Image.inDirectMap, Image.phySize]
    exact decide_eq_true (by omega)
  · simp only [VA2PA, VM_START, PA2VA_OFFSET] at *
    omega

/-- The kernel image lies below the frames of the allocator. -/
theorem Image.Holds.below (h : img.Holds va n) (hk : k < n) : VA2PA va + k < img.firstFree * 4096 := by
  obtain ⟨hlo, hhi⟩ := h
  have hroom := img.room
  have h20 := img.two_pow_order_le
  have hpos := Nat.two_pow_pos img.order
  simp only [Image.firstFree, reservedPages, freePageStart, VA2PA, VM_START, PGSIZE, PA2VA_OFFSET, PHY_START] at *
  omega

theorem loadField_spec (va n : Nat) : Ends (loadField img va n) s
    (fun v t => t = s ∧ (img.Holds va n → v = ld n s.mem (VA2PA va))) fun e _ => e = .fault ∧ ¬ img.Holds va n := by
  induction n generalizing va with
  | zero => exact ends_pure.mpr ⟨rfl, fun _ => rfl⟩
  | succ n ih =>
      rw [loadField]
      refine ends_bind.mpr ?_
      have hbyte : Ends (loadByte img (va % 2 ^ 64)) s
          (fun c t => t = s ∧ (img.Holds va (n + 1) → c = s.mem (VA2PA va)))
          fun e _ => e = .fault ∧ ¬ img.Holds va (n + 1) := by
        by_cases hh : img.Holds va (n + 1)
        · obtain ⟨hmod, hdir, -⟩ := hh.direct (k := 0) (Nat.succ_pos n)
          rw [Nat.add_zero] at hmod hdir
          rw [hmod, loadByte, kernelPa, if_pos hdir, ends_bind, ends_pure, ends_bind, ends_get, ends_pure]
          exact ⟨rfl, fun _ => rfl⟩
        · exact ends_loadByte_any.mono (fun _ _ ht => ⟨ht, fun h => absurd h hh⟩) fun _ _ he => ⟨he.1, hh⟩
      refine hbyte.mono ?_ fun _ _ he => he
      rintro c _ ⟨rfl, hc⟩
      refine ends_bind.mpr ((ih (va + 1)).mono ?_ ?_)
      · rintro v _ ⟨rfl, hv⟩
        refine ends_pure.mpr ⟨rfl, fun hh => ?_⟩
        have hnext : VA2PA (va + 1) = VA2PA va + 1 ∨ n = 0 := by
          rcases Nat.eq_zero_or_pos n with h0 | hpos
          · exact .inr h0
          · exact .inl (hh.direct (k := 1) (by omega)).2.2
        rw [hc hh, hv (hh.mono (o := 1) (by omega)), ld]
        rcases hnext with hnext | rfl
        · rw [hnext]
        · rw [ld, ld]
      · rintro e _ ⟨he, hno⟩
        exact ⟨he, fun hh => hno (hh.mono (o := 1) (by omega))⟩

theorem loadPhdr_spec (va : Nat) : Ends (loadPhdr img va) s
    (fun p t => t = s ∧ (img.Holds va 56 → p = phdrAt s.mem (VA2PA va)))
    fun e _ => e = .fault ∧ ¬ img.Holds va 56 := by
  have hfield : ∀ {o n : Nat} {α : Type} {f : Nat → K α} {Q : α → KState → Prop}, o + n ≤ 56 → o < 56 →
      (∀ v, (img.Holds va 56 → v = ld n s.mem (VA2PA va + o)) →
        Ends (f v) s Q fun e _ => e = .fault ∧ ¬ img.Holds va 56) →
      Ends (loadField img (va + o) n >>= f) s Q fun e _ => e = .fault ∧ ¬ img.Holds va 56 := by
    intro o n α f Q ho ho' hQ
    refine ends_bind.mpr ((loadField_spec _ _).mono ?_ fun _ _ he => ⟨he.1, fun hh => he.2 (hh.mono ho)⟩)
    rintro v _ ⟨rfl, hv⟩
    exact hQ v fun hh => by rw [hv (hh.mono ho), (hh.direct ho').2.2]
  rw [loadPhdr]
  refine hfield (o := 0) (by omega) (by omega) fun v₀ h₀ => hfield (by omega) (by omega) fun v₁ h₁ => ?_
  refine hfield (by omega) (by omega) fun v₂ h₂ => hfield (by omega) (by omega) fun v₃ h₃ => ?_
  refine hfield (by omega) (by omega) fun v₄ h₄ => hfield (by omega) (by omega) fun v₅ h₅ => ?_
  refine ends_pure.mpr ⟨rfl, fun hh => ?_⟩
  rw [h₀ hh, h₁ hh, h₂ hh, h₃ hh, h₄ hh, h₅ hh, phdrAt, Nat.add_zero]

end Fields

/-- The areas `gs` have been entered in the list of frame `c`, the last of `gs` first; `l` are their nodes. -/
inductive Mmaps (img : Image) (c : Nat) (s : KState) : List Segment → List Nat → KState → Prop
  | nil : Mmaps img c s [] [] s
  | cons {gs : List Segment} {l : List Nat} {t u : KState} {g : Segment} {f : Nat} {a : VmArea} :
      Mmaps img c s gs l t → Mmapped img t u c f a → g.At a → Mmaps img c s (g :: gs) (framePtr f :: l) u

section Mmaps
variable {img : Image} {lay : Layout} {s t u : KState} {c head : Nat} {gs gs' : List Segment} {l l' : List Nat}

/-- The areas of nodes that were there are not changed. -/
theorem Mmapped.keeps {f : Nat} {a : VmArea} (hm : Mmapped img s t c f a) (hnot : framePtr f ∉ l)
    (h : List.Forall₂ (fun g p => g.At (s.vma p)) gs l) : List.Forall₂ (fun g p => g.At (t.vma p)) gs l := by
  refine List.forall₂_iff_get.mpr ⟨h.length_eq, fun k h1 h2 => ?_⟩
  have hk := h.get h1 h2
  obtain ⟨p, hp⟩ := hm.rest (l.get ⟨k, h2⟩) fun he => hnot (he ▸ List.get_mem l ⟨k, h2⟩)
  rw [hp]
  exact hk

theorem Mmaps.append (h : Mmaps img c s gs l t) (h' : Mmaps img c t gs' l' u) :
    Mmaps img c s (gs' ++ gs) (l' ++ l) u := by
  induction h' with
  | nil => exact h
  | cons _ hm hg ih => exact .cons ih hm hg

theorem Mmaps.trace (h : Mmaps img c s gs l t) : t.trace = s.trace := by
  induction h with
  | nil => rfl
  | cons _ hm _ ih => exact hm.trace.trans ih

theorem Mmaps.task (h : Mmaps img c s gs l t) : t.task = s.task ∧ t.current = s.current := by
  induction h with
  | nil => exact ⟨rfl, rfl⟩
  | cons _ hm _ ih => exact ⟨hm.task.trans ih.1, hm.current.trans ih.2⟩

theorem Mmaps.satp (h : Mmaps img c s gs l t) : t.satp = s.satp := by
  induction h with
  | nil => rfl
  | cons _ hm _ ih => exact hm.satp.trans ih

theorem Mmaps.pages (h : Mmaps img c s gs l t) (hs : s.Pages img) : t.Pages img := by
  induction h with
  | nil => exact hs
  | cons _ hm _ _ => exact hm.pages

/-- Every area takes a frame for its node. -/
theorem Mmaps.inUse (h : Mmaps img c s gs l t) (hs : s.Pages img) : t.buddy.inUse = s.buddy.inUse + gs.length := by
  induction h with
  | nil => rfl
  | cons hrest hm _ ih =>
      have hone := inUse_succ (hrest.pages hs) hm.pages hm.ram hm.free hm.taken hm.others
      rw [hone, ih, List.length_cons, Nat.add_assoc]

theorem Mmaps.live (h : Mmaps img c s gs l t) {f : Nat} (hf : img.Ram f) (hne : s.ref f ≠ 0) :
    t.ref f = s.ref f := by
  induction h with
  | nil => rfl
  | cons _ hm _ ih => rw [hm.live hf (by rw [ih]; exact hne), ih]

theorem Mmaps.sparing (h : Mmaps img c s gs l t) (hc : img.Ram c) (hne : s.ref c ≠ 0) : Sparing img s t := by
  induction h with
  | nil => exact .refl s
  | cons hms hm _ ih => exact ih.trans (hm.sparing (by rw [hms.live hc hne]; exact hne))

/-- Only the head of the list has changed in memory. -/
theorem Mmaps.mem (h : Mmaps img c s gs l t) {x : Nat} (hx : x < c * 4096 + TASK_MM ∨ c * 4096 + TASK_MM + 8 ≤ x) :
    t.mem x = s.mem x := by
  induction h with
  | nil => rfl
  | cons _ hm _ ih => rw [hm.mem, sd_outside hx, ih]

theorem Mmaps.paging (h : Mmaps img c s gs l t) (hp : Paging img lay s) (hc : lay.role c = .task) :
    Paging img lay t := by
  induction h with
  | nil => exact hp
  | cons _ hm _ ih => exact hm.paging ih hc

/-- The list that was there is behind the new areas. -/
theorem Mmaps.nodeList (h : Mmaps img c s gs l t)
    (hl : NodeList img s (ld 8 s.mem (c * 4096 + TASK_MM)) l') :
    NodeList img t (ld 8 t.mem (c * 4096 + TASK_MM)) (l ++ l') := by
  induction h with
  | nil => exact hl
  | cons _ hm _ ih => exact hm.cons ih

theorem Mmaps.others (h : Mmaps img c s gs l t) (hl : NodeList img s head l') : NodeList img t head l' := by
  induction h with
  | nil => exact hl
  | cons _ hm _ ih => exact hm.nodeList ih

theorem Mmaps.keeps (h : Mmaps img c s gs l t) (hl : NodeList img s head l')
    (ha : List.Forall₂ (fun g p => g.At (s.vma p)) gs' l') : List.Forall₂ (fun g p => g.At (t.vma p)) gs' l' := by
  induction h with
  | nil => exact ha
  | cons hm hmm _ ih => exact hmm.keeps ((hm.others hl).not_mem hmm.free) ih

/-- The nodes hold the areas in order. -/
theorem Mmaps.areas (h : Mmaps img c s gs l t) (hl : NodeList img s (ld 8 s.mem (c * 4096 + TASK_MM)) []) :
    List.Forall₂ (fun g p => g.At (t.vma p)) gs l := by
  induction h with
  | nil => exact .nil
  | cons hm hmm hg ih =>
      have hlist := hm.nodeList hl
      rw [List.append_nil] at hlist
      exact .cons (by rw [hmm.area]; exact hg) (hmm.keeps (hlist.not_mem hmm.free) ih)

/-- One call of `do_mmap`. -/
theorem doMmap_mmaps (h : s.Pages img) (hc : img.Ram c) (g : Segment) :
    Ends (doMmap img (framePtr c + TASK_MM) g.start g.len g.pgoff g.filesz g.flags) s
      (fun _ t => ∃ l, Mmaps img c s [g] l t)
      fun e t => e = .null ∧ OutOfPages img t ∧ 2 ^ img.order < s.buddy.inUse + 1 := by
  refine (doMmap_spec h hc).mono ?_ ?_
  · rintro _ t ⟨-, f, hm⟩
    exact ⟨_, .cons .nil hm ⟨rfl, rfl, rfl, rfl, rfl⟩⟩
  · rintro e _ ⟨he, rfl, hfull⟩
    have hall := hfull.inUse h
    exact ⟨he, hfull, by omega⟩

theorem phdrAt_congr {m m' : Mem} {a : Nat} (h : ∀ k, k < 56 → m (a + k) = m' (a + k)) :
    phdrAt m a = phdrAt m' a := by
  have hfield : ∀ {o n : Nat}, o + n ≤ 56 → ld n m (a + o) = ld n m' (a + o) := fun ho =>
    ld_shift fun k hk => by
      rw [Nat.add_assoc]
      exact h _ (by omega)
  have hfirst : ld 4 m a = ld 4 m' a := hfield (o := 0) (by omega)
  rw [phdrAt, phdrAt, hfirst, hfield (by omega), hfield (by omega), hfield (by omega), hfield (by omega),
    hfield (by omega)]

theorem segments_congr {m m' : Mem} {n a : Nat} (h : ∀ k, k < 56 * n → m (a + k) = m' (a + k)) :
    segments m n a = segments m' n a := by
  induction n generalizing a with
  | zero => rfl
  | succ n ih =>
      have hrest : ∀ k, k < 56 * n → m (a + 56 + k) = m' (a + 56 + k) := fun k hk => by
        rw [Nat.add_assoc]
        exact h _ (by omega)
      rw [segments, segments, ih hrest, phdrAt_congr fun k hk => h k (by omega)]

/-- What lies in the kernel image is not changed. -/
theorem Mmaps.image (h : Mmaps img c s gs l t) (habove : img.firstFree ≤ c) {va n k : Nat}
    (hh : img.Holds va n) (hk : k < n) : t.mem (VA2PA va + k) = s.mem (VA2PA va + k) := by
  have hbelow := hh.below hk
  refine h.mem (.inl ?_)
  have hframe : img.firstFree * 4096 ≤ c * 4096 := Nat.mul_le_mul_right _ habove
  exact Nat.lt_of_lt_of_le hbelow (hframe.trans (Nat.le_add_right _ _))

theorem mmapSegments_spec (h : s.Pages img) (hc : img.Ram c) (habove : img.firstFree ≤ c) (n phdr : Nat) :
    Ends (mmapSegments img (framePtr c) n phdr) s
      (fun _ t => ∃ gs l, Mmaps img c s gs l t ∧
        (img.Holds phdr (56 * n) → gs = segments s.mem n (VA2PA phdr)))
      fun e t => (e = .null ∧ OutOfPages img t ∧ (img.Holds phdr (56 * n) →
        2 ^ img.order < s.buddy.inUse + (segments s.mem n (VA2PA phdr)).length)) ∨
        (e = .fault ∧ ¬ img.Holds phdr (56 * n)) := by
  induction n generalizing s phdr with
  | zero => exact ends_pure.mpr ⟨[], [], .nil, fun _ => rfl⟩
  | succ n ih =>
      have hfirst : img.Holds phdr (56 * (n + 1)) → img.Holds phdr 56 := fun hh => hh.mono (o := 0) (by omega)
      have hrest : img.Holds phdr (56 * (n + 1)) → img.Holds (phdr + 56) (56 * n) := fun hh =>
        hh.mono (o := 56) (by omega)
      rw [mmapSegments]
      refine ends_bind.mpr ((loadPhdr_spec phdr).mono ?_ fun _ _ he => .inr ⟨he.1, fun hh => he.2 (hfirst hh)⟩)
      rintro p v ⟨hv, hp⟩
      rw [hv]
      -- the rest of the headers, behind the areas `gs` of this one
      have hloop : ∀ {t : KState} {gs l}, Mmaps img c s gs l t →
          (img.Holds phdr (56 * (n + 1)) → gs = if (phdrAt s.mem (VA2PA phdr)).p_type = PT_LOAD then
            [(phdrAt s.mem (VA2PA phdr)).segment] else []) →
          Ends (mmapSegments img (framePtr c) n (phdr + 56)) t
            (fun _ u => ∃ gs l, Mmaps img c s gs l u ∧
              (img.Holds phdr (56 * (n + 1)) → gs = segments s.mem (n + 1) (VA2PA phdr)))
            fun e u => (e = .null ∧ OutOfPages img u ∧ (img.Holds phdr (56 * (n + 1)) →
              2 ^ img.order < s.buddy.inUse + (segments s.mem (n + 1) (VA2PA phdr)).length)) ∨
              (e = .fault ∧ ¬ img.Holds phdr (56 * (n + 1))) := by
        intro t gs l hm hgs
        have hsplit : img.Holds phdr (56 * (n + 1)) →
            segments s.mem (n + 1) (VA2PA phdr) = segments t.mem n (VA2PA (phdr + 56)) ++ gs := fun hh => by
          have hnext : n = 0 ∨ VA2PA (phdr + 56) = VA2PA phdr + 56 := by
            rcases Nat.eq_zero_or_pos n with h0 | hpos
            · exact .inl h0
            · exact .inr (hh.direct (k := 56) (by omega)).2.2
          have hsame : segments t.mem n (VA2PA (phdr + 56)) = segments s.mem n (VA2PA (phdr + 56)) :=
            segments_congr fun k hk => hm.image habove (hrest hh) hk
          rw [hsame, hgs hh, segments]
          rcases hnext with h0 | hnext
          · rw [h0, segments, segments]
          · rw [hnext]
        refine (ih (hm.pages h) (phdr + 56)).mono ?_ ?_
        · rintro _ u ⟨gs', l', hm', hgs'⟩
          exact ⟨gs' ++ gs, l' ++ l, hm.append hm', fun hh => by rw [hgs' (hrest hh), hsplit hh]⟩
        · rintro e u (⟨he, hfull, hshort⟩ | ⟨he, hno⟩)
          · refine .inl ⟨he, hfull, fun hh => ?_⟩
            have hlt := hshort (hrest hh)
            rw [hm.inUse h] at hlt
            rw [hsplit hh, List.length_append]
            omega
          · exact .inr ⟨he, fun hh => hno (hrest hh)⟩
      by_cases hload : p.p_type = PT_LOAD
      · rw [if_pos hload]
        refine ends_bind.mpr ((doMmap_mmaps h hc p.segment).mono ?_ fun _ _ he => .inl ⟨he.1, he.2.1, fun hh => ?_⟩)
        rotate_left
        · have hshort := he.2.2
          rw [segments, List.length_append, ← hp (hfirst hh), if_pos hload, List.length_singleton]
          omega
        rintro _ t ⟨l, hm⟩
        refine hloop hm fun hh => ?_
        rw [← hp (hfirst hh), if_pos hload]
      · rw [if_neg hload]
        refine hloop .nil fun hh => ?_
        rw [← hp (hfirst hh), if_neg hload]

section Pages
variable {task : Nat}

theorem grows_loadField (va n : Nat) : Grows 0 (loadField img va n) := by
  induction n generalizing va with
  | zero => simp [loadField]
  | succ n ih => simp [loadField, ih]

theorem grows_loadPhdr (va : Nat) : Grows 0 (loadPhdr img va) :=
  grows_bind (grows_loadField ..) fun _ => grows_bind (grows_loadField ..) fun _ =>
    grows_bind (grows_loadField ..) fun _ => grows_bind (grows_loadField ..) fun _ =>
      grows_bind (grows_loadField ..) fun _ => grows_bind (grows_loadField ..) fun _ => grows_pure _

theorem grows_mmapSegments (n phdr : Nat) : Grows n (mmapSegments img task n phdr) := by
  induction n generalizing phdr with
  | zero => exact grows_pure _
  | succ n ih =>
      refine grows_bind (grows_loadPhdr _) fun p => grows_ite ?_ ((ih _).mono (Nat.le_succ n))
      exact grows_add (grows_doMmap ..) (fun _ => ih _) (Nat.add_comm 1 n).le

/-- `VMA_init` behind the reads of the ELF header. -/
theorem grows_segments (n phdr : Nat) : Grows (n + 1) (do
    mmapSegments img task n phdr
    let _ ← doMmap img (task + TASK_MM) (USER_END - PGSIZE) PGSIZE 0 0 0x7
    let eEntry ← loadField img (img.sramdisk + 24) 8
    storeWord img (task + THREAD_SEPC) eEntry) :=
  grows_add (grows_mmapSegments ..) (fun _ => grows_last (grows_doMmap ..) fun _ =>
    grows_bind (grows_loadField ..) fun _ => grows_storeWord ..) le_rfl

end Pages

/-- Number of program headers. -/
def phnum (img : Image) (m : Mem) : Nat := ld 2 m (VA2PA img.sramdisk + 56)

/-- The entry point of the ELF file. -/
def elfEntry (img : Image) (m : Mem) : Nat := ld 8 m (VA2PA img.sramdisk + 24)

/-- `VMA_init` enters the stack and the loadable segments, and the entry point; it needs a frame for each of them. -/
theorem vmaInit_spec (h : s.Pages img) (hc : img.Ram c) (habove : img.firstFree ≤ c) :
    Ends (vmaInit img (framePtr c)) s
      (fun _ t => ∃ gs l u v, Mmaps img c s gs l u ∧ t = u.withMem (sd 8 u.mem (c * 4096 + THREAD_SEPC) v) ∧
        (ElfInside img s.mem → gs = elfSegments img s.mem ∧ Within (phnum img s.mem + 1) s t ∧ v = elfEntry img s.mem))
      fun e t => (e = .null ∧ OutOfPages img t ∧ (ElfInside img s.mem → Within (phnum img s.mem + 1) s t ∧
        2 ^ img.order < s.buddy.inUse + (elfSegments img s.mem).length)) ∨
        (e = .fault ∧ ¬ ElfInside img s.mem) := by
  rw [vmaInit]
  refine ends_bind.mpr ((loadField_spec (img.sramdisk + 32) 8).mono ?_ fun _ _ he =>
    .inr ⟨he.1, fun hh => he.2 (hh.1.mono (by omega))⟩)
  rintro off v ⟨hv, hoff⟩
  rw [hv]
  refine ends_bind.mpr ((loadField_spec (img.sramdisk + 56) 2).mono ?_ fun _ _ he =>
    .inr ⟨he.1, fun hh => he.2 (hh.1.mono (by omega))⟩)
  rintro num w ⟨hw, hnum⟩
  rw [hw]
  have hoff' : ElfInside img s.mem → off = ld 8 s.mem (VA2PA img.sramdisk + 32) := fun hh => by
    rw [hoff (hh.1.mono (by omega)), (hh.1.direct (k := 32) (by omega)).2.2]
  have hnum' : ElfInside img s.mem → num = ld 2 s.mem (VA2PA img.sramdisk + 56) := fun hh => by
    rw [hnum (hh.1.mono (by omega)), (hh.1.direct (k := 56) (by omega)).2.2]
  have hphdrs : ElfInside img s.mem → img.Holds (img.sramdisk + off) (56 * num) := fun hh => by
    rw [hoff' hh, hnum' hh]
    exact hh.2
  have hpages : ∀ {t : KState}, Within (num + 1) s t → ElfInside img s.mem → Within (phnum img s.mem + 1) s t :=
    fun hw hh => by rwa [hnum' hh] at hw
  refine Ends.mono (Ends.and (Q := fun _ t => ∃ gs l u v, Mmaps img c s gs l u ∧
      t = u.withMem (sd 8 u.mem (c * 4096 + THREAD_SEPC) v) ∧
      (ElfInside img s.mem → gs = elfSegments img s.mem ∧ v = elfEntry img s.mem))
    (E := fun e t => (e = .null ∧ OutOfPages img t ∧ (ElfInside img s.mem →
      2 ^ img.order < s.buddy.inUse + (elfSegments img s.mem).length)) ∨ (e = .fault ∧ ¬ ElfInside img s.mem)) ?_
    ((grows_segments num (img.sramdisk + off)).run s)) ?_ ?_
  rotate_left
  · rintro _ t ⟨⟨gs, l, u, v, hm, ht, hgs⟩, hw⟩
    exact ⟨gs, l, u, v, hm, ht, fun hh => ⟨(hgs hh).1, hpages hw hh, (hgs hh).2⟩⟩
  · rintro e t ⟨he, hw⟩
    exact he.imp_left fun hn => ⟨hn.1, hn.2.1, fun hh => ⟨hpages hw hh, hn.2.2 hh⟩⟩
  have hlist : ElfInside img s.mem →
      elfSegments img s.mem = stackSegment :: segments s.mem num (VA2PA (img.sramdisk + off)) := fun hh => by
    have hpa : num = 0 ∨ VA2PA (img.sramdisk + off) = VA2PA img.sramdisk + off := by
      rcases Nat.eq_zero_or_pos num with h0 | hpos
      · exact .inl h0
      · right
        have h1 := hh.1
        have h2 := hphdrs hh
        have hroom := img.room
        simp only [Image.Holds, VA2PA, VM_START, PA2VA_OFFSET] at *
        omega
    rw [elfSegments, ← hoff' hh, ← hnum' hh]
    rcases hpa with h0 | hpa
    · rw [h0, segments, segments]
    · rw [hpa]
  refine ends_bind.mpr ((mmapSegments_spec h hc habove num (img.sramdisk + off)).mono ?_ ?_)
  · rintro _ t ⟨gs, l, hm, hgs⟩
    refine ends_bind.mpr ((doMmap_mmaps (hm.pages h) hc stackSegment).mono ?_ fun e u he => .inl ⟨he.1, he.2.1, fun hh => ?_⟩)
    rotate_left
    · have hshort := he.2.2
      rw [hm.inUse h, hgs (hphdrs hh)] at hshort
      rw [hlist hh, List.length_cons]
      omega
    rintro _ u ⟨l', hm'⟩
    refine ends_bind.mpr ((loadField_spec (img.sramdisk + 24) 8).mono ?_ fun _ _ he =>
      .inr ⟨he.1, fun hh => he.2 (hh.1.mono (by omega))⟩)
    rintro entry x ⟨hx, hentry⟩
    rw [hx]
    refine (ends_storeWord hc (by decide)).mpr ⟨_, _, u, entry, hm.append hm', rfl, fun hh => ⟨?_, ?_⟩⟩
    · rw [hgs (hphdrs hh), hlist hh]
      rfl
    · have hheader : img.Holds (img.sramdisk + 24) 8 := hh.1.mono (by omega)
      rw [hentry hheader, (hh.1.direct (k := 24) (by omega)).2.2, elfEntry]
      refine ld_shift fun k hk => ?_
      rw [Nat.add_assoc]
      exact (hm.append hm').image habove hh.1 (by omega)
  · rintro e t (⟨he, hfull, hshort⟩ | ⟨he, hno⟩)
    · refine .inl ⟨he, hfull, fun hh => ?_⟩
      have hlt := hshort (hphdrs hh)
      rw [hlist hh, List.length_cons]
      omega
    · exact .inr ⟨he, fun hh => hno (hphdrs hh)⟩

end Mmaps

end ZjuOs
