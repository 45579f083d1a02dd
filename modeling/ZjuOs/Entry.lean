import ZjuOs.Access
import ZjuOs.Rv64

/-!
`entry.S`: the trap entry, the return from a trap, the first return of a task and the switch between two tasks. The
stacks of the kernel and the tasks lie in page frames of RAM.
-/
namespace ZjuOs
open Memory Exec Rv64

/-- The memory that the code of `entry.S` runs on. -/
def kernelSys (img : Image) : Sys Halt KState where
  load va := do return BitVec.ofNat 64 (← loadWord img va.toNat)
  store va v := storeWord img va.toNat v.toNat
  setSatp v := modify fun s => { s with satp := v.toNat }
  fence := sfenceVma

abbrev Hart : Type := Core KState

section Code

/-- `sd r, off(base)` for the pairs of a list. -/
def stores (base : Reg) (l : List (Reg × Nat)) : List Instr := l.map fun p => .sd p.1 p.2 base

/-- `ld r, off(base)` for the pairs of a list. -/
def loads (base : Reg) (l : List (Reg × Nat)) : List Instr := l.map fun p => .ld p.1 p.2 base

/-- `csrr tmp, csr` and `sd tmp, off(base)` for the pairs of a list. -/
def csrStores (tmp base : Reg) (l : List (Csr × Nat)) : List Instr :=
  l.flatMap fun p => [.csrr tmp p.1, .sd tmp p.2 base]

/-- `ld tmp, off(base)` and `csrw csr, tmp` for the pairs of a list. -/
def csrLoads (tmp base : Reg) (l : List (Csr × Nat)) : List Instr :=
  l.flatMap fun p => [.ld tmp p.2 base, .csrw p.1 tmp]

/-- `x0` to `x31` at their places in the trap frame. -/
def frameRegs : List (Reg × Nat) := (List.finRange 32).map fun r => (r, 8 * r.val)

def frameCsrs : List (Csr × Nat) := [(.sepc, 256), (.stval, 264), (.sscratch, 272), (.scause, 280)]

/-- The stack of the kernel is taken from `sscratch`, unless the trap comes from the kernel. -/
def takeStack : List Instr := [.csrrw sp .sscratch sp, .bnez sp 1, .csrrw sp .sscratch sp, .addi sp sp (-288)]

/-- The arguments of `trap_handler`. -/
def trapArgs : List Instr := [.csrr a0 .scause, .csrr a1 .sepc, .addi a2 sp 0]

/-- `_traps` up to the call of `trap_handler`. -/
def trapsCode : List Instr := takeStack ++ (stores sp frameRegs ++ (csrStores t0 sp frameCsrs ++ trapArgs))

/-- `x31` down to `x3`. -/
def upperRegs : List (Reg × Nat) := (frameRegs.filter fun p => 3 ≤ p.1.val).reverse

def leaveStack : List Instr :=
  [.ld ra 8 sp, .ld x0 0 sp, .ld sp 16 sp, .addi sp sp 280, .csrrw sp .sscratch sp, .bnez sp 1, .csrrw sp .sscratch sp]

/-- `__ret_from_fork`, behind the call of `trap_handler`, up to `sret`. -/
def retFromForkCode : List Instr := csrLoads t0 sp frameCsrs.reverse ++ (loads sp upperRegs ++ leaveStack)

/-- `__dummy` up to `sret`. -/
def dummyCode : List Instr := [.csrrw sp .sscratch sp]

/-- `ra`, `sp` and `s0` to `s11` at their places in `thread_struct`. -/
def threadRegs : List (Reg × Nat) :=
  [(ra, 0), (sp, 8), (s0, 16), (s1, 24), (s2, 32), (s3, 40), (s4, 48), (s5, 56), (s6, 64), (s7, 72), (s8, 80), (s9, 88),
    (s10, 96), (s11, 104)]

def threadCsrs : List (Csr × Nat) := [(.sepc, 112), (.sstatus, 120), (.sscratch, 128)]

/-- The address space of the next task is selected. -/
def selectRoot : List Instr :=
  [.addi a1 a1 168, .ld t0 0 a1, .li t1 0xffffffdf80000000, .sub t0 t0 t1, .srli t0 t0 12, .li t1 0x8000000000000000,
    .or t0 t0 t1, .satp t0, .sfenceVma]

/-- `__switch_to` up to `ret`. -/
def switchToCode : List Instr :=
  .addi t0 a0 32 :: (stores t0 threadRegs ++ (csrStores t1 t0 threadCsrs ++ (.addi t1 a1 32 ::
    (loads t1 threadRegs ++ (csrLoads t2 t1 threadCsrs ++ selectRoot)))))

end Code

section Words
variable {α : Type} {m : Mem} {a k n x : Nat} {l : List (α × Nat)} {val : α → Word} {p : α × Nat}

/-- The memory after the words of a list have been stored at their offsets from `a`. -/
def storeAll (val : α → Word) (a : Nat) (m : Mem) (l : List (α × Nat)) : Mem :=
  l.foldl (fun m p => sd 8 m (a + p.2) (val p.1).toNat) m

/-- No two words of the list overlap. -/
abbrev Disjoint8 (l : List (α × Nat)) : Prop := l.Pairwise fun p q => p.2 + 8 ≤ q.2 ∨ q.2 + 8 ≤ p.2

theorem storeAll_outside (h : ∀ p ∈ l, x < a + p.2 ∨ a + p.2 + 8 ≤ x) : storeAll val a m l x = m x := by
  induction l generalizing m with
  | nil => rfl
  | cons p l ih =>
      rw [storeAll, List.foldl_cons]
      refine (ih fun q hq => h q (List.mem_cons_of_mem _ hq)).trans ?_
      exact sd_outside (h p List.mem_cons_self)

theorem ld_storeAll_outside (h : ∀ p ∈ l, k + n ≤ a + p.2 ∨ a + p.2 + 8 ≤ k) :
    ld n (storeAll val a m l) k = ld n m k :=
  ld_congr fun x hlo hhi => storeAll_outside fun p hp => by
    have := h p hp
    omega

theorem ld_storeAll (hl : Disjoint8 l) (hp : p ∈ l) : ld 8 (storeAll val a m l) (a + p.2) = (val p.1).toNat := by
  induction l generalizing m with
  | nil => cases hp
  | cons q l ih =>
      obtain ⟨hq, hl⟩ := List.pairwise_cons.mp hl
      rw [storeAll, List.foldl_cons]
      rcases List.mem_cons.mp hp with rfl | hp
      · refine (ld_storeAll_outside fun q hmem => ?_).trans ?_
        · have := hq q hmem
          omega
        · rw [ld_sd_self]
          exact Nat.mod_eq_of_lt (val p.1).isLt
      · exact ih hl hp

end Words

section Registers
variable {c : Hart} {m : Mem} {a : Nat} {l : List (Reg × Nat)} {r tmp : Reg} {p : Reg × Nat} {qs : List (Csr × Nat)} {q : Csr × Nat}

/-- The core after the words of a list have been loaded from `a`. -/
def Hart.loadAll (c : Hart) (m : Mem) (a : Nat) (l : List (Reg × Nat)) : Hart :=
  l.foldl (fun d p => d.set p.1 (BitVec.ofNat 64 (ld 8 m (a + p.2)))) c

theorem loadAll_csr : (Hart.loadAll c m a l).csr = c.csr := by
  induction l generalizing c with
  | nil => rfl
  | cons p l ih => exact ih

theorem loadAll_sys : (Hart.loadAll c m a l).sys = c.sys := by
  induction l generalizing c with
  | nil => rfl
  | cons p l ih => exact ih

theorem loadAll_of_notMem (h : ∀ p ∈ l, p.1 ≠ r) : (Hart.loadAll c m a l).reg r = c.reg r := by
  induction l generalizing c with
  | nil => rfl
  | cons p l ih =>
      rw [Hart.loadAll, List.foldl_cons]
      refine (ih fun q hq => h q (List.mem_cons_of_mem _ hq)).trans ?_
      exact Core.reg_set_of_ne (h p List.mem_cons_self).symm

theorem loadAll_mem (hl : (l.map Prod.fst).Nodup) (hp : p ∈ l) (h0 : p.1 ≠ 0) :
    (Hart.loadAll c m a l).reg p.1 = BitVec.ofNat 64 (ld 8 m (a + p.2)) := by
  induction l generalizing c with
  | nil => cases hp
  | cons q l ih =>
      rw [List.map_cons, List.nodup_cons] at hl
      rw [Hart.loadAll, List.foldl_cons]
      rcases List.mem_cons.mp hp with rfl | hp
      · refine (loadAll_of_notMem fun q hq he => hl.1 ?_).trans (Core.reg_set_self h0)
        exact he ▸ List.mem_map_of_mem hq
      · exact ih hl.2 hp

/-- The core after control registers have been loaded from `a` through the register `tmp`. -/
def Hart.loadCsrs (c : Hart) (tmp : Reg) (m : Mem) (a : Nat) (qs : List (Csr × Nat)) : Hart :=
  qs.foldl (fun d q => (d.set tmp (BitVec.ofNat 64 (ld 8 m (a + q.2)))).setCsr q.1 (BitVec.ofNat 64 (ld 8 m (a + q.2)))) c

theorem loadCsrs_sys : (Hart.loadCsrs c tmp m a qs).sys = c.sys := by
  induction qs generalizing c with
  | nil => rfl
  | cons q qs ih => exact ih

theorem loadCsrs_reg (h : r ≠ tmp) : (Hart.loadCsrs c tmp m a qs).reg r = c.reg r := by
  induction qs generalizing c with
  | nil => rfl
  | cons q qs ih =>
      rw [Hart.loadCsrs, List.foldl_cons]
      refine ih.trans ?_
      rw [Core.reg_setCsr, Core.reg_set_of_ne h]

theorem loadCsrs_of_notMem {k : Csr} (h : ∀ q ∈ qs, q.1 ≠ k) : (Hart.loadCsrs c tmp m a qs).csr k = c.csr k := by
  induction qs generalizing c with
  | nil => rfl
  | cons q qs ih =>
      rw [Hart.loadCsrs, List.foldl_cons]
      refine (ih fun p hp => h p (List.mem_cons_of_mem _ hp)).trans ?_
      rw [Core.csr_setCsr_of_ne (h q List.mem_cons_self).symm, Core.set_csr]

theorem loadCsrs_mem (hl : (qs.map Prod.fst).Nodup) (hq : q ∈ qs) :
    (Hart.loadCsrs c tmp m a qs).csr q.1 = BitVec.ofNat 64 (ld 8 m (a + q.2)) := by
  induction qs generalizing c with
  | nil => cases hq
  | cons p qs ih =>
      rw [List.map_cons, List.nodup_cons] at hl
      rw [Hart.loadCsrs, List.foldl_cons]
      rcases List.mem_cons.mp hq with rfl | hq
      · refine (loadCsrs_of_notMem fun p hp he => hl.1 ?_).trans Core.csr_setCsr_self
        exact he ▸ List.mem_map_of_mem hp
      · exact ih hl.2 hq

end Registers

section Rules
variable {img : Image} {c : Hart} {f o off : Nat} {rd rt base : Reg} {is : List Instr} {l : List (Reg × Nat)}
  {Q : Unit → Hart → Prop} {E : Halt → Hart → Prop}

/-- The address of byte `o` of frame `f`. -/
def ptr (f o : Nat) : Word := BitVec.ofNat 64 (framePtr f + o)

theorem ptr_toNat (hf : img.Ram f) (ho : o ≤ 4096) : (ptr f o).toNat = framePtr f + o := by
  rw [ptr, BitVec.toNat_ofNat]
  exact Nat.mod_eq_of_lt (framePtr_lt hf ho)

theorem ptr_ne_zero (hf : img.Ram f) (ho : o ≤ 4096) : ptr f o ≠ 0 := by
  intro h
  have hzero := congrArg BitVec.toNat h
  rw [ptr_toNat hf ho] at hzero
  have hne := framePtr_ne_zero f
  exact hne (Nat.eq_zero_of_add_eq_zero_right hzero)

theorem ptr_add {n : Nat} : ptr f o + BitVec.ofNat 64 n = ptr f (o + n) := by
  rw [ptr, ptr, ← BitVec.ofNat_add, Nat.add_assoc]

theorem ptr_addi {n : Nat} : ptr f o + BitVec.ofInt 64 n = ptr f (o + n) := by
  rw [BitVec.ofInt_natCast]
  exact ptr_add

theorem ptr_subi {n : Nat} (h : n ≤ o) : ptr f o + BitVec.ofInt 64 (-n) = ptr f (o - n) := by
  have hsum : ptr f (o - n) + BitVec.ofNat 64 n = ptr f o := by
    rw [ptr_add, Nat.sub_add_cancel h]
  rw [← hsum, BitVec.ofInt_neg, BitVec.ofInt_natCast, BitVec.add_assoc, BitVec.add_right_neg, BitVec.add_zero]

theorem ends_ldFrame (hf : img.Ram f) (hb : c.reg base = ptr f o) (ho : o + off + 8 ≤ 4096) :
    Ends (run (kernelSys img) 0 (.ld rd off base :: is)) c Q E ↔
      Ends (run (kernelSys img) 0 is) (c.set rd (BitVec.ofNat 64 (ld 8 c.sys.mem (f * 4096 + (o + off))))) Q E := by
  have hload : ∀ {P : Word → KState → Prop} {F : Halt → KState → Prop},
      Ends ((kernelSys img).load (ptr f (o + off))) c.sys P F ↔
        P (BitVec.ofNat 64 (ld 8 c.sys.mem (f * 4096 + (o + off)))) c.sys := by
    intro P F
    change Ends (loadWord img (ptr f (o + off)).toNat >>= fun v => pure (BitVec.ofNat 64 v)) c.sys P F ↔ _
    rw [ptr_toNat hf (by omega), ends_bind, ends_loadWord hf (by omega), ends_pure]
  rw [ends_ld, address, hb, ptr_add, hload]
  rfl

theorem ends_sdFrame (hf : img.Ram f) (hb : c.reg base = ptr f o) (ho : o + off + 8 ≤ 4096) :
    Ends (run (kernelSys img) 0 (.sd rt off base :: is)) c Q E ↔
      Ends (run (kernelSys img) 0 is)
        (c.withSys (c.sys.withMem (sd 8 c.sys.mem (f * 4096 + (o + off)) (c.reg rt).toNat))) Q E := by
  have hstore : ∀ {P : Unit → KState → Prop} {F : Halt → KState → Prop},
      Ends ((kernelSys img).store (ptr f (o + off)) (c.reg rt)) c.sys P F ↔
        P () (c.sys.withMem (sd 8 c.sys.mem (f * 4096 + (o + off)) (c.reg rt).toNat)) := by
    intro P F
    change Ends (storeWord img (ptr f (o + off)).toNat (c.reg rt).toNat) c.sys P F ↔ _
    rw [ptr_toNat hf (by omega), ends_storeWord hf (by omega)]
  rw [ends_sd, address, hb, ptr_add, hstore]

theorem ends_stores (hf : img.Ram f) (hb : c.reg base = ptr f o) (hl : ∀ p ∈ l, o + p.2 + 8 ≤ 4096) :
    Ends (run (kernelSys img) 0 (stores base l ++ is)) c Q E ↔
      Ends (run (kernelSys img) 0 is) (c.withSys (c.sys.withMem (storeAll c.reg (f * 4096 + o) c.sys.mem l))) Q E := by
  induction l generalizing c with
  | nil => rfl
  | cons p l ih =>
      rw [stores, List.map_cons, List.cons_append, ends_sdFrame hf hb (hl p List.mem_cons_self), ← Nat.add_assoc]
      exact ih hb fun q hq => hl q (List.mem_cons_of_mem _ hq)

theorem ends_loads (hf : img.Ram f) (hb : c.reg base = ptr f o) (hl : ∀ p ∈ l, o + p.2 + 8 ≤ 4096 ∧ p.1 ≠ base) :
    Ends (run (kernelSys img) 0 (loads base l ++ is)) c Q E ↔
      Ends (run (kernelSys img) 0 is) (Hart.loadAll c c.sys.mem (f * 4096 + o) l) Q E := by
  induction l generalizing c with
  | nil => rfl
  | cons p l ih =>
      obtain ⟨ho, hne⟩ := hl p List.mem_cons_self
      rw [loads, List.map_cons, List.cons_append, ends_ldFrame hf hb ho, ← Nat.add_assoc]
      exact ih (by rw [Core.reg_set_of_ne hne.symm, hb]) fun q hq => hl q (List.mem_cons_of_mem _ hq)

theorem ends_csrStores {tmp : Reg} {qs : List (Csr × Nat)} (hf : img.Ram f) (hb : c.reg base = ptr f o) (htmp : tmp ≠ 0)
    (hne : base ≠ tmp) (hl : ∀ q ∈ qs, o + q.2 + 8 ≤ 4096)
    (hQ : ∀ d, (∀ r, r ≠ tmp → d.reg r = c.reg r) → d.csr = c.csr →
      d.sys = c.sys.withMem (storeAll c.csr (f * 4096 + o) c.sys.mem qs) → Ends (run (kernelSys img) 0 is) d Q E) :
    Ends (run (kernelSys img) 0 (csrStores tmp base qs ++ is)) c Q E := by
  induction qs generalizing c with
  | nil => exact hQ c (fun _ _ => rfl) rfl rfl
  | cons q qs ih =>
      rw [csrStores, List.flatMap_cons, List.append_assoc, List.cons_append, ends_csrr, List.cons_append, List.nil_append]
      refine (ends_sdFrame hf (by rw [Core.reg_set_of_ne hne, hb]) (hl q List.mem_cons_self)).mpr ?_
      rw [Core.reg_set_self htmp, ← Nat.add_assoc]
      refine ih (by rw [Core.reg_withSys, Core.reg_set_of_ne hne, hb]) (fun p hp => hl p (List.mem_cons_of_mem _ hp)) ?_
      intro d hreg hcsr hsys
      refine hQ d (fun r hr => ?_) hcsr hsys
      rw [hreg r hr, Core.reg_withSys, Core.reg_set_of_ne hr]

theorem ends_csrLoads {tmp : Reg} {qs : List (Csr × Nat)} (hf : img.Ram f) (hb : c.reg base = ptr f o) (htmp : tmp ≠ 0)
    (hne : base ≠ tmp) (hl : ∀ q ∈ qs, o + q.2 + 8 ≤ 4096) :
    Ends (run (kernelSys img) 0 (csrLoads tmp base qs ++ is)) c Q E ↔
      Ends (run (kernelSys img) 0 is) (Hart.loadCsrs c tmp c.sys.mem (f * 4096 + o) qs) Q E := by
  induction qs generalizing c with
  | nil => rfl
  | cons q qs ih =>
      rw [csrLoads, List.flatMap_cons, List.append_assoc, List.cons_append, ends_ldFrame hf hb (hl q List.mem_cons_self),
        List.cons_append, List.nil_append, ends_csrw, Core.reg_set_self htmp, ← Nat.add_assoc]
      exact ih (by rw [Core.reg_setCsr, Core.reg_set_of_ne hne, hb]) fun p hp => hl p (List.mem_cons_of_mem _ hp)

end Rules

end ZjuOs
