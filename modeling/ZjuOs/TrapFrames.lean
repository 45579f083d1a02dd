import ZjuOs.Board
import ZjuOs.Entry

/-!
A trap and the return from it. The stack pointer of the kernel that is left in `sscratch` is 8 bytes below the one
that was taken from it.
-/
namespace ZjuOs
open Memory Exec Rv64

/-- Word `j` of the trap frame at the physical address `a`. -/
def frameWord (m : Mem) (a j : Nat) : Nat := ld 8 m (a + 8 * j)

/-- The same word in a register. -/
def frameReg (m : Mem) (a j : Nat) : Word := BitVec.ofNat 64 (frameWord m a j)

theorem frameReg_toNat {m : Mem} {a j : Nat} : (frameReg m a j).toNat = frameWord m a j := by
  rw [frameReg, BitVec.toNat_ofNat]
  exact Nat.mod_eq_of_lt (ld_lt 8 m _)

/-- The stack of the kernel ends at byte `o` of frame `f`: its pointer is in `sscratch` when the trap comes from user
mode, and in `sp` when it comes from the kernel. `u` is what `_traps` saves for the stack of the user. -/
inductive Stack (f o : Nat) (c : Hart) (u : Word) : Prop
  | user : c.csr .sscratch = ptr f o → u = c.reg sp → Stack f o c u
  | kernel : c.csr .sscratch = 0 → c.reg sp = ptr f o → u = 0 → Stack f o c u

/-- The core `c` with the stack of the kernel in `sp` and `u` in `sscratch`. -/
structure Took (f o : Nat) (u : Word) (c d : Hart) : Prop where
  sp : d.reg sp = ptr f o
  reg : ∀ r, r ≠ Rv64.sp → d.reg r = c.reg r
  sscratch : d.csr .sscratch = u
  csr : ∀ q, q ≠ .sscratch → d.csr q = c.csr q
  sys : d.sys = c.sys

/-- What `_traps` has saved when it calls `trap_handler`. -/
structure Saved (f o : Nat) (u : Word) (c d : Hart) : Prop where
  sp : d.reg sp = ptr f o
  scause : d.reg a0 = c.csr .scause
  sepc : d.reg a1 = c.csr .sepc
  regs : d.reg a2 = ptr f o
  sscratch : d.csr .sscratch = u
  csr : ∀ q, q ≠ .sscratch → d.csr q = c.csr q
  word : ∀ r : Reg, r ≠ Rv64.sp → frameReg d.sys.mem (f * 4096 + o) r = c.reg r
  stack : frameReg d.sys.mem (f * 4096 + o) 2 = ptr f o
  wordSepc : frameReg d.sys.mem (f * 4096 + o) 32 = c.csr .sepc
  wordStval : frameReg d.sys.mem (f * 4096 + o) 33 = c.csr .stval
  wordUser : frameReg d.sys.mem (f * 4096 + o) 34 = u
  wordScause : frameReg d.sys.mem (f * 4096 + o) 35 = c.csr .scause
  sys : ∃ m, d.sys = c.sys.withMem m ∧ ∀ x, x < f * 4096 + o ∨ f * 4096 + o + 288 ≤ x → m x = c.sys.mem x

/-- SPP of `sstatus` is clear: the trap came from user mode, or `sret` enters it. -/
def UserMode (c : Hart) : Prop := (c.csr .sstatus).getLsbD 8 = false

/-- The state that `sret` returns to. -/
structure Restored (a : Nat) (d e : Hart) : Prop where
  sys : e.sys = d.sys
  reg : ∀ r : Reg, r ≠ 0 → r ≠ Rv64.sp → e.reg r = frameReg d.sys.mem a r
  sepc : e.csr .sepc = frameReg d.sys.mem a 32
  stval : e.csr .stval = frameReg d.sys.mem a 33
  scause : e.csr .scause = frameReg d.sys.mem a 35
  sstatus : e.csr .sstatus = d.csr .sstatus
  stack : (frameReg d.sys.mem a 34 ≠ 0 ∧ e.reg sp = frameReg d.sys.mem a 34 ∧
      e.csr .sscratch = frameReg d.sys.mem a 2 + BitVec.ofNat 64 280) ∨
    (frameReg d.sys.mem a 34 = 0 ∧ e.reg sp = frameReg d.sys.mem a 2 + BitVec.ofNat 64 280 ∧ e.csr .sscratch = 0)

section Traps
variable {img : Image} {c d : Hart} {f o : Nat} {u : Word} {is : List Instr} {Q : Unit → Hart → Prop} {E : Halt → Hart → Prop}

theorem Stack.ends_takeStack (h : Stack f (o + 288) c u) (hf : img.Ram f) (ho : o + 288 ≤ 4096)
    (hQ : ∀ d, Took f o u c d → Ends (run (kernelSys img) 0 is) d Q E) :
    Ends (run (kernelSys img) 0 (takeStack ++ is)) c Q E := by
  have hsub : ptr f (o + 288) + BitVec.ofInt 64 (-288) = ptr f o := by
    have hback := ptr_subi (f := f) (o := o + 288) (n := 288) (by omega)
    rwa [Nat.add_sub_cancel] at hback
  have hne := ptr_ne_zero hf ho
  rw [takeStack, List.cons_append, ends_csrrw, List.cons_append]
  cases h with
  | user hs hu =>
      rw [ends_bnez_taken (by rw [Core.reg_set_self (by decide), hs]; exact hne), List.cons_append, ends_run_skip,
        List.cons_append, List.nil_append, ends_addi]
      refine hQ _ ⟨?_, fun r hr => ?_, ?_, fun q hq => ?_, rfl⟩
      · rw [Core.reg_set_self (by decide), Core.reg_set_self (by decide), hs, hsub]
      · rw [Core.reg_set_of_ne hr, Core.reg_set_of_ne hr, Core.reg_setCsr]
      · rw [Core.set_csr, Core.set_csr, Core.csr_setCsr_self, hu]
      · rw [Core.set_csr, Core.set_csr, Core.csr_setCsr_of_ne hq]
  | kernel hs hsp hu =>
      rw [ends_bnez_zero (by rw [Core.reg_set_self (by decide), hs]), List.cons_append, ends_csrrw, List.cons_append,
        List.nil_append, ends_addi]
      refine hQ _ ⟨?_, fun r hr => ?_, ?_, fun q hq => ?_, rfl⟩
      · rw [Core.reg_set_self (by decide), Core.reg_set_self (by decide), Core.set_csr, Core.csr_setCsr_self, hsp, hsub]
      · rw [Core.reg_set_of_ne hr, Core.reg_set_of_ne hr, Core.reg_setCsr, Core.reg_set_of_ne hr, Core.reg_setCsr]
      · rw [Core.set_csr, Core.set_csr, Core.csr_setCsr_self, Core.reg_set_self (by decide), hs, hu]
      · rw [Core.set_csr, Core.set_csr, Core.csr_setCsr_of_ne hq, Core.set_csr, Core.csr_setCsr_of_ne hq]

theorem disjoint_frameRegs : Disjoint8 frameRegs := by
  rw [Disjoint8, frameRegs, List.pairwise_map]
  refine (List.pairwise_lt_finRange 32).imp fun {r q} hlt => .inl ?_
  have hval : r.val < q.val := hlt
  omega

theorem mem_frameRegs (r : Reg) : (r, 8 * r.val) ∈ frameRegs := List.mem_map.mpr ⟨r, List.mem_finRange r, rfl⟩

theorem frameRegs_le {p : Reg × Nat} (hp : p ∈ frameRegs) : p.2 + 8 ≤ 256 := by
  obtain ⟨r, -, rfl⟩ := List.mem_map.mp hp
  have := r.isLt
  dsimp only
  omega

theorem outside_frame {x a k : Nat} (hx : x < a ∨ a + 288 ≤ x) (hk : k + 8 ≤ 288) : x < a + k ∨ a + k + 8 ≤ x := by omega

theorem disjoint_frameCsrs : Disjoint8 frameCsrs := by decide

theorem frameCsrs_le {p : Csr × Nat} (hp : p ∈ frameCsrs) : 256 ≤ p.2 ∧ p.2 + 8 ≤ 288 := by
  have hall : ∀ p ∈ frameCsrs, 256 ≤ p.2 ∧ p.2 + 8 ≤ 288 := by decide
  exact hall p hp

/-- `_traps` saves the registers. -/
theorem Stack.saves (h : Stack f (o + 288) c u) (hf : img.Ram f) (ho : o + 288 ≤ 4096) :
    Ends (run (kernelSys img) 0 trapsCode) c (fun _ d => Saved f o u c d) fun _ _ => False := by
  rw [trapsCode]
  refine h.ends_takeStack hf ho fun c₁ ht => ?_
  refine (ends_stores hf ht.sp fun p hp => ?_).mpr ?_
  · have := frameRegs_le hp
    omega
  refine ends_csrStores hf ht.sp (by decide) (by decide) (fun q hq => ?_) fun c₂ hreg hcsr hsys => ?_
  · have := frameCsrs_le hq
    omega
  rw [trapArgs, ends_csrr, ends_csrr, ends_addi, ends_run_nil]
  obtain ⟨m, hm⟩ : ∃ m, m = storeAll c₁.csr (f * 4096 + o)
      (storeAll c₁.reg (f * 4096 + o) c₁.sys.mem frameRegs) frameCsrs := ⟨_, rfl⟩
  have hmem : c₂.sys = c.sys.withMem m := by
    rw [hsys, hm, Core.withSys_sys, ht.sys]
    rfl
  -- the words of the frame
  have hword : ∀ r : Reg, frameReg m (f * 4096 + o) r = c₁.reg r := by
    intro r
    rw [frameReg, frameWord, hm, ld_storeAll_outside fun p hp => ?_,
      ld_storeAll disjoint_frameRegs (mem_frameRegs r), BitVec.ofNat_toNat, BitVec.setWidth_eq]
    have h1 := frameCsrs_le hp
    have h2 := r.isLt
    omega
  have hcsrWord : ∀ q k, (q, 8 * k) ∈ frameCsrs → frameReg m (f * 4096 + o) k = c₁.csr q := by
    intro q k hq
    rw [frameReg, frameWord, hm, ld_storeAll disjoint_frameCsrs hq, BitVec.ofNat_toNat, BitVec.setWidth_eq]
  have hctl : ∀ q, q ≠ .sscratch → c₂.csr q = c.csr q := fun q hq => by
    rw [hcsr, Core.withSys_csr, ht.csr q hq]
  have hscratch : c₂.csr .sscratch = u := by rw [hcsr, Core.withSys_csr, ht.sscratch]
  have hsp : c₂.reg sp = ptr f o := by rw [hreg sp (by decide), Core.reg_withSys, ht.sp]
  constructor
  case sp => rw [Core.reg_set_of_ne (by decide), Core.reg_set_of_ne (by decide), Core.reg_set_of_ne (by decide), hsp]
  case scause =>
    rw [Core.reg_set_of_ne (by decide), Core.reg_set_of_ne (by decide), Core.reg_set_self (by decide), hctl _ (by decide)]
  case sepc => rw [Core.reg_set_of_ne (by decide), Core.reg_set_self (by decide), Core.set_csr, hctl _ (by decide)]
  case regs =>
    rw [Core.reg_set_self (by decide), Core.reg_set_of_ne (by decide), Core.reg_set_of_ne (by decide), hsp]
    exact BitVec.add_zero _
  case sscratch => exact hscratch
  case csr => exact hctl
  case word =>
    intro r hr
    rw [Core.set_sys, Core.set_sys, Core.set_sys, hmem]
    exact (hword r).trans (ht.reg r hr)
  case stack =>
    rw [Core.set_sys, Core.set_sys, Core.set_sys, hmem]
    exact (hword sp).trans ht.sp
  case wordSepc =>
    rw [Core.set_sys, Core.set_sys, Core.set_sys, hmem]
    exact (hcsrWord .sepc 32 (by decide)).trans (ht.csr _ (by decide))
  case wordStval =>
    rw [Core.set_sys, Core.set_sys, Core.set_sys, hmem]
    exact (hcsrWord .stval 33 (by decide)).trans (ht.csr _ (by decide))
  case wordUser =>
    rw [Core.set_sys, Core.set_sys, Core.set_sys, hmem]
    exact (hcsrWord .sscratch 34 (by decide)).trans ht.sscratch
  case wordScause =>
    rw [Core.set_sys, Core.set_sys, Core.set_sys, hmem]
    exact (hcsrWord .scause 35 (by decide)).trans (ht.csr _ (by decide))
  case sys =>
    refine ⟨m, hmem, fun x hx => ?_⟩
    rw [hm, storeAll_outside fun p hp => ?_, storeAll_outside fun p hp => ?_, ht.sys]
    · exact outside_frame hx ((frameRegs_le hp).trans (by decide))
    · exact outside_frame hx (frameCsrs_le hp).2

theorem mem_upperRegs {p : Reg × Nat} : p ∈ upperRegs ↔ p ∈ frameRegs ∧ 3 ≤ p.1.val := by
  rw [upperRegs, List.mem_reverse, List.mem_filter, decide_eq_true_iff]

theorem nodup_upperRegs : (upperRegs.map Prod.fst).Nodup := by
  have hall : (frameRegs.map Prod.fst).Nodup := by
    rw [frameRegs, List.map_map]
    exact (List.nodup_finRange 32).map fun _ _ h => h
  rw [upperRegs, List.map_reverse, List.nodup_reverse]
  exact hall.sublist (List.filter_sublist.map Prod.fst)

/-- What the end of the return does, apart from `x1`, the stack pointer and `sscratch`. -/
structure Left (a : Nat) (c e : Hart) : Prop where
  sys : e.sys = c.sys
  csr : ∀ q, q ≠ .sscratch → e.csr q = c.csr q
  link : e.reg ra = frameReg c.sys.mem a 1
  reg : ∀ r : Reg, 3 ≤ r.val → e.reg r = c.reg r
  stack : (c.csr .sscratch ≠ 0 ∧ e.reg sp = c.csr .sscratch ∧ e.csr .sscratch = frameReg c.sys.mem a 2 + BitVec.ofNat 64 280) ∨
    (c.csr .sscratch = 0 ∧ e.reg sp = frameReg c.sys.mem a 2 + BitVec.ofNat 64 280 ∧ e.csr .sscratch = 0)

/-- The two stack pointers are exchanged, unless the one of the user is null. -/
theorem ends_exchange (h : ∀ e : Hart, e.sys = c.sys → (∀ q, q ≠ .sscratch → e.csr q = c.csr q) →
    (∀ r, r ≠ sp → e.reg r = c.reg r) →
    ((c.csr .sscratch ≠ 0 ∧ e.reg sp = c.csr .sscratch ∧ e.csr .sscratch = c.reg sp) ∨
      (c.csr .sscratch = 0 ∧ e.reg sp = c.reg sp ∧ e.csr .sscratch = 0)) → Q () e) :
    Ends (run (kernelSys img) 0 [.csrrw sp .sscratch sp, .bnez sp 1, .csrrw sp .sscratch sp]) c Q E := by
  rw [ends_csrrw]
  by_cases hu : c.csr .sscratch = 0
  · rw [ends_bnez_zero (by rw [Core.reg_set_self (by decide), hu]), ends_csrrw, ends_run_nil]
    refine h _ rfl (fun q hq => ?_) (fun r hr => ?_) (.inr ⟨hu, ?_, ?_⟩)
    · rw [Core.set_csr, Core.csr_setCsr_of_ne hq, Core.set_csr, Core.csr_setCsr_of_ne hq]
    · rw [Core.reg_set_of_ne hr, Core.reg_setCsr, Core.reg_set_of_ne hr, Core.reg_setCsr]
    · rw [Core.reg_set_self (by decide), Core.set_csr, Core.csr_setCsr_self]
    · rw [Core.set_csr, Core.csr_setCsr_self, Core.reg_set_self (by decide), hu]
  · rw [ends_bnez_taken (by rw [Core.reg_set_self (by decide)]; exact hu), ends_run_skip, ends_run_nil]
    refine h _ rfl (fun q hq => ?_) (fun r hr => ?_) (.inl ⟨hu, ?_, ?_⟩)
    · rw [Core.set_csr, Core.csr_setCsr_of_ne hq]
    · rw [Core.reg_set_of_ne hr, Core.reg_setCsr]
    · rw [Core.reg_set_self (by decide)]
    · rw [Core.set_csr, Core.csr_setCsr_self]

theorem ends_leaveStack (hf : img.Ram f) (hc : c.reg sp = ptr f o) (ho : o + 288 ≤ 4096)
    (hQ : ∀ e, Left (f * 4096 + o) c e → Q () e) : Ends (run (kernelSys img) 0 leaveStack) c Q E := by
  have h1 : BitVec.ofNat 64 (ld 8 c.sys.mem (f * 4096 + (o + 8))) = frameReg c.sys.mem (f * 4096 + o) 1 := by
    rw [← Nat.add_assoc]
    rfl
  have h2 : BitVec.ofNat 64 (ld 8 c.sys.mem (f * 4096 + (o + 16))) = frameReg c.sys.mem (f * 4096 + o) 2 := by
    rw [← Nat.add_assoc]
    rfl
  rw [leaveStack, ends_ldFrame hf hc (by omega), h1, ends_ldFrame hf (by rw [Core.reg_set_of_ne (by decide), hc]) (by omega),
    Core.set_sys]
  generalize BitVec.ofNat 64 (ld 8 c.sys.mem (f * 4096 + (o + 0))) = w
  rw [ends_ldFrame hf (by rw [Core.reg_set_of_ne (by decide), Core.reg_set_of_ne (by decide), hc]) (by omega), Core.set_sys,
    Core.set_sys, h2, ends_addi, Core.reg_set_self (by decide)]
  refine ends_exchange fun e hsys hcsr hreg hstack => hQ e ⟨hsys, hcsr, ?_, fun r hr => ?_, ?_⟩
  · rw [hreg ra (by decide), Core.reg_set_of_ne (by decide), Core.reg_set_of_ne (by decide), Core.reg_set_of_ne (by decide),
      Core.reg_set_self (by decide)]
  · have h0 : r ≠ 0 := by
      rintro rfl
      exact absurd hr (by decide)
    have h1 : r ≠ 1 := by
      rintro rfl
      exact absurd hr (by decide)
    have h2 : r ≠ 2 := by
      rintro rfl
      exact absurd hr (by decide)
    rw [hreg r h2, Core.reg_set_of_ne h2, Core.reg_set_of_ne h2, Core.reg_set_of_ne h0, Core.reg_set_of_ne h1]
  · rw [Core.reg_set_self (by decide)] at hstack
    exact hstack

/-- The return restores what the frame holds. -/
theorem ends_retFromFork (hf : img.Ram f) (hd : d.reg sp = ptr f o) (ho : o + 288 ≤ 4096) :
    Ends (run (kernelSys img) 0 retFromForkCode) d (fun _ e => Restored (f * 4096 + o) d e) fun _ _ => False := by
  rw [retFromForkCode]
  refine (ends_csrLoads hf hd (by decide) (by decide) fun q hq => ?_).mpr ?_
  · have := frameCsrs_le (List.mem_reverse.mp hq)
    omega
  obtain ⟨c₁, hc₁⟩ : ∃ c₁, c₁ = Hart.loadCsrs d t0 d.sys.mem (f * 4096 + o) frameCsrs.reverse := ⟨_, rfl⟩
  have hsys₁ : c₁.sys = d.sys := by rw [hc₁, loadCsrs_sys]
  have hsp₁ : c₁.reg sp = ptr f o := by rw [hc₁, loadCsrs_reg (by decide), hd]
  have hcsr₁ : ∀ q k, (q, 8 * k) ∈ frameCsrs.reverse → c₁.csr q = frameReg d.sys.mem (f * 4096 + o) k := fun q k hq => by
    rw [hc₁]
    exact loadCsrs_mem (q := (q, 8 * k)) (by decide) hq
  have hstatus : c₁.csr .sstatus = d.csr .sstatus := by rw [hc₁, loadCsrs_of_notMem (by decide)]
  rw [← hc₁]
  refine (ends_loads hf hsp₁ fun p hp => ?_).mpr ?_
  · obtain ⟨hframe, hthree⟩ := mem_upperRegs.mp hp
    refine ⟨by have := frameRegs_le hframe; omega, ?_⟩
    rintro he
    rw [he] at hthree
    exact absurd hthree (by decide)
  obtain ⟨c₂, hc₂⟩ : ∃ c₂, c₂ = Hart.loadAll c₁ c₁.sys.mem (f * 4096 + o) upperRegs := ⟨_, rfl⟩
  have hsys₂ : c₂.sys = d.sys := by rw [hc₂, loadAll_sys, hsys₁]
  have hcsr₂ : c₂.csr = c₁.csr := by rw [hc₂, loadAll_csr]
  have hsp₂ : c₂.reg sp = ptr f o := by
    rw [hc₂, loadAll_of_notMem, hsp₁]
    rintro p hp he
    have hthree := (mem_upperRegs.mp hp).2
    rw [he] at hthree
    exact absurd hthree (by decide)
  have hupper : ∀ r : Reg, 3 ≤ r.val → c₂.reg r = frameReg d.sys.mem (f * 4096 + o) r := by
    intro r hr
    rw [hc₂, hsys₁]
    refine loadAll_mem (p := (r, 8 * r.val)) nodup_upperRegs (mem_upperRegs.mpr ⟨mem_frameRegs r, hr⟩) ?_
    rintro rfl
    exact absurd hr (by decide)
  rw [← hc₂]
  refine ends_leaveStack hf hsp₂ ho fun e he => ?_
  have hstack := he.stack
  rw [hcsr₂, hsys₂, hcsr₁ .sscratch 34 (by decide)] at hstack
  refine ⟨he.sys.trans hsys₂, fun r h0 h2 => ?_, ?_, ?_, ?_, ?_, hstack⟩
  · by_cases h1 : r = 1
    · rw [h1, he.link, hsys₂]
      rfl
    · have h0' : r.val ≠ 0 := fun he => h0 (Fin.ext he)
      have h1' : r.val ≠ 1 := fun he => h1 (Fin.ext he)
      have h2' : r.val ≠ 2 := fun he => h2 (Fin.ext he)
      rw [he.reg r (by omega), hupper r (by omega)]
  · rw [he.csr _ (by decide), hcsr₂, hcsr₁ .sepc 32 (by decide)]
  · rw [he.csr _ (by decide), hcsr₂, hcsr₁ .stval 33 (by decide)]
  · rw [he.csr _ (by decide), hcsr₂, hcsr₁ .scause 35 (by decide)]
  · rw [he.csr _ (by decide), hcsr₂, hstatus]

end Traps

/-- What a compiled `trap_handler` leaves as it was: the stack pointer, and the frame but for `a0` and `sepc`. -/
structure Handled (d e : Hart) : Prop where
  sp : e.reg sp = d.reg sp
  word : ∀ j, j < 36 → j ≠ 10 → j ≠ 32 →
    frameReg e.sys.mem (VA2PA (d.reg Rv64.sp).toNat) j = frameReg d.sys.mem (VA2PA (d.reg Rv64.sp).toNat) j

/-- The state behind a trap that was taken in `c`. -/
structure Returned (f o : Nat) (u : Word) (c e : Hart) : Prop where
  reg : ∀ r : Reg, r ≠ sp → r ≠ a0 → e.reg r = c.reg r
  result : e.reg a0 = frameReg e.sys.mem (f * 4096 + o) 10
  sepc : e.csr .sepc = frameReg e.sys.mem (f * 4096 + o) 32
  stval : e.csr .stval = c.csr .stval
  scause : e.csr .scause = c.csr .scause
  user : u ≠ 0 → e.reg sp = u ∧ e.csr .sscratch = ptr f (o + 280)
  kernel : u = 0 → e.reg sp = ptr f (o + 280) ∧ e.csr .sscratch = 0

section Returns
variable {img : Image} {c d d' e : Hart} {f o n : Nat} {u : Word}

/-- The return from a trap frame that holds the registers of `c`. -/
theorem Restored.returned (hr : Restored (f * 4096 + o) d e)
    (hreg : ∀ r : Reg, r ≠ sp → r ≠ a0 → frameReg d.sys.mem (f * 4096 + o) r = c.reg r)
    (hstack : frameReg d.sys.mem (f * 4096 + o) 2 = ptr f o) (hstval : frameReg d.sys.mem (f * 4096 + o) 33 = c.csr .stval)
    (huser : frameReg d.sys.mem (f * 4096 + o) 34 = u) (hscause : frameReg d.sys.mem (f * 4096 + o) 35 = c.csr .scause) :
    Returned f o u c e := by
  have hends := hr.stack
  rw [huser, hstack, ptr_add] at hends
  constructor
  case reg =>
    intro r hsp ha0
    by_cases h0 : r = 0
    · rw [h0, Core.reg_zero, Core.reg_zero]
    · rw [hr.reg r h0 hsp, hreg r hsp ha0]
  case result =>
    rw [hr.sys]
    exact hr.reg a0 (by decide) (by decide)
  case sepc => rw [hr.sys, hr.sepc]
  case stval => rw [hr.stval, hstval]
  case scause => rw [hr.scause, hscause]
  case user =>
    intro hu
    rcases hends with ⟨-, h1, h2⟩ | ⟨h0, -⟩
    · exact ⟨h1, h2⟩
    · exact absurd h0 hu
  case kernel =>
    intro hu
    rcases hends with ⟨h0, -⟩ | ⟨-, h1, h2⟩
    · exact absurd hu h0
    · exact ⟨h1, h2⟩

theorem Saved.returned (hs : Saved f o u c d) (hf : img.Ram f) (ho : o + 288 ≤ 4096) (hh : Handled d d')
    (hr : Restored (f * 4096 + o) d' e) : Returned f o u c e := by
  have hword := hh.word
  rw [hs.sp, ptr_toNat hf (by omega), VA2PA_framePtr hf (by omega)] at hword
  refine hr.returned (fun r hsp ha0 => ?_) ?_ ?_ ?_ ?_
  · have hne : r.val ≠ 10 := fun he => ha0 (Fin.ext he)
    rw [hword r (by omega) hne (by omega), hs.word r hsp]
  · rw [hword 2 (by decide) (by decide) (by decide), hs.stack]
  · rw [hword 33 (by decide) (by decide) (by decide), hs.wordStval]
  · rw [hword 34 (by decide) (by decide) (by decide), hs.wordUser]
  · rw [hword 35 (by decide) (by decide) (by decide), hs.wordScause]

theorem Stack.saved (h : Stack f (o + 288) c u) (hf : img.Ram f) (ho : o + 288 ≤ 4096)
    (hrun : (run (kernelSys img) 0 trapsCode).run c = .ok () d) : Saved f o u c d := (h.saves hf ho).of_ok hrun

theorem Saved.restores (hs : Saved f o u c d) (hf : img.Ram f) (ho : o + 288 ≤ 4096) (hh : Handled d d') :
    ∃ e, (run (kernelSys img) 0 retFromForkCode).run d' = .ok () e ∧ Restored (f * 4096 + o) d' e ∧ Returned f o u c e := by
  obtain ⟨_, e, hrun, hr⟩ := (ends_retFromFork hf (hh.sp.trans hs.sp) ho).returns
  exact ⟨e, hrun, hr, hs.returned hf ho hh hr⟩

theorem Saved.resumes (hs : Saved f o u c d) (hf : img.Ram f) (ho : o + 288 ≤ 4096) (hh : Handled d d') :
    ∃ e, (run (kernelSys img) 0 retFromForkCode).run d' = .ok () e ∧ Returned f o u c e := by
  obtain ⟨e, hrun, -, hret⟩ := hs.restores hf ho hh
  exact ⟨e, hrun, hret⟩

theorem Handled.refl (d : Hart) : Handled d d := ⟨rfl, fun _ _ _ _ => rfl⟩

theorem Stack.runs (h : Stack f (o + 288) c u) (hf : img.Ram f) (ho : o + 288 ≤ 4096) :
    ∃ d, (run (kernelSys img) 0 trapsCode).run c = .ok () d ∧ Saved f o u c d := by
  cases hrun : (run (kernelSys img) 0 trapsCode).run c with
  | ok _ d => exact ⟨d, rfl, h.saved hf ho hrun⟩
  | error x d => exact ((h.saves hf ho).of_error hrun).elim

/-- A user program with a 1 in each register traps in the state `s`. -/
theorem user_traps (hf : img.Ram f) (s : KState) (w : BitVec 64) : ∃ c d : Hart, c.sys = s ∧ (∀ r, c.x r = 1) ∧
    (∀ q, q ≠ .sscratch → c.csr q = w) ∧ Stack f (3808 + 288) c 1 ∧ (run (kernelSys img) 0 trapsCode).run c = .ok () d ∧
    Saved f 3808 1 c d := by
  obtain ⟨c, hc⟩ : ∃ c : Hart, c = Core.setCsr { x := fun _ => 1, csr := fun _ => w, sys := s } .sscratch (ptr f 4096) :=
    ⟨_, rfl⟩
  have hstack : Stack f (3808 + 288) c 1 := .user (by rw [hc]; exact Core.csr_setCsr_self) (by rw [hc]; rfl)
  obtain ⟨d, htrap, hs⟩ := hstack.runs hf (by decide)
  exact ⟨c, d, by rw [hc]; rfl, by rw [hc]; exact fun _ => rfl, fun q hq => by rw [hc, Core.csr_setCsr_of_ne hq], hstack, htrap, hs⟩

/-- A trap saves all registers and returns to the task with them, but for the result in `a0`. The stack pointer of the
kernel has moved down by 8 bytes: in `sscratch` when the trap came from user mode, in `sp` when it came from the kernel
and `sscratch` was null. -/
theorem trap_returns (h : Stack f (o + 288) c u) (hf : img.Ram f) (ho : o + 288 ≤ 4096) :
    ∃ d, (run (kernelSys img) 0 trapsCode).run c = .ok () d ∧ Saved f o u c d ∧ ∀ d', Handled d d' →
      ∃ e, (run (kernelSys img) 0 retFromForkCode).run d' = .ok () e ∧ Returned f o u c e := by
  obtain ⟨d, hrun, hs⟩ := h.runs hf ho
  exact ⟨d, hrun, hs, fun d' hh => hs.resumes hf ho hh⟩

/-- A user program on the board, with the stack of the kernel in the frame `0x80300`. -/
def boardHart : Hart :=
  Core.setCsr { x := fun _ => 1, csr := fun _ => 0, sys := boardWith boardMem ⟨0, fun _ => 0, fun _ => 0⟩ } .sscratch
    (ptr 0x80300 4096)

theorem boardHart_sscratch : boardHart.csr .sscratch = ptr 0x80300 4096 := Core.csr_setCsr_self

theorem boardHart_stack : Stack 0x80300 (3808 + 288) boardHart 1 := .user boardHart_sscratch rfl

theorem trap_returns_board : ∃ d e, (run (kernelSys board) 0 trapsCode).run boardHart = .ok () d ∧
    Saved 0x80300 3808 1 boardHart d ∧ (run (kernelSys board) 0 retFromForkCode).run d = .ok () e ∧ Returned 0x80300 3808 1 boardHart e := by
  have hram : board.Ram 0x80300 := ⟨by decide, by decide⟩
  obtain ⟨d, hsave, hs, hrest⟩ := trap_returns boardHart_stack hram (by decide)
  obtain ⟨e, hrun, hret⟩ := hrest d (.refl d)
  exact ⟨d, e, hsave, hs, hrun, hret⟩

/-- User programs and traps in turn, `n` traps in all; a user program leaves `sscratch`, and its stack pointer is not
null. -/
inductive Traps (img : Image) (c : Hart) : Nat → Hart → Prop
  | zero : Traps img c 0 c
  | succ {n : Nat} {d u u₁ u₂ e : Hart} : Traps img c n d → u.csr .sscratch = d.csr .sscratch → u.reg sp ≠ 0 →
      (run (kernelSys img) 0 trapsCode).run u = .ok () u₁ → Handled u₁ u₂ →
      (run (kernelSys img) 0 retFromForkCode).run u₂ = .ok () e → Traps img c (n + 1) e

theorem Traps.sscratch (h : Traps img c n d) (hf : img.Ram f) (hlo : 280 ≤ o) (hhi : 8 * n + o ≤ 4096)
    (hc : c.csr .sscratch = ptr f (8 * n + o)) : d.csr .sscratch = ptr f o := by
  induction h generalizing o with
  | zero =>
      rw [Nat.mul_zero, Nat.zero_add] at hc
      exact hc
  | @succ n d u u₁ u₂ e _ hsame hne hsave hh hrest ih =>
      have hd := ih (o := o + 8) (by omega) (by omega) (by rw [hc]; congr 1; omega)
      have hstack : Stack f (o - 280 + 288) u (u.reg sp) := .user (by rw [hsame, hd]; congr 1; omega) rfl
      have hle : o - 280 + 288 ≤ 4096 := by omega
      obtain ⟨e', hrun, hret⟩ := (hstack.saved hf hle hsave).resumes hf hle hh
      rw [hrest] at hrun
      cases hrun
      rw [(hret.user hne).2]
      congr 1
      omega

/-- Every trap from user mode costs 8 bytes of the kernel stack of the task. The stores of `_traps` leave the task structure
at the start of its page alone while fewer than 454 traps have been taken; the trap behind the 454th stores 0 over its list
of areas. The stack of `trap_handler` is below the frame, so that one gets there earlier. -/
theorem stack_drifts (h : Traps img c n d) (hf : img.Ram f) (hc : c.csr .sscratch = ptr f PGSIZE) (hn : 8 * n + 288 ≤ PGSIZE)
    (hsame : e.csr .sscratch = d.csr .sscratch)
    (hrun : (run (kernelSys img) 0 trapsCode).run e = .ok () d') :
    d.csr .sscratch = ptr f (PGSIZE - 8 * n) ∧
      (n < 454 → ∀ x, x < TASK_MM + 8 → d'.sys.mem (f * 4096 + x) = e.sys.mem (f * 4096 + x)) ∧
      (n = 454 → ld 8 d'.sys.mem (f * 4096 + TASK_MM) = 0) := by
  simp only [PGSIZE] at hn hc
  have hd : d.csr .sscratch = ptr f (4096 - 8 * n) := h.sscratch hf (by omega) (by omega) (by rw [hc]; congr 1; omega)
  have hstack : Stack f (4096 - 8 * n - 288 + 288) e (e.reg sp) := .user (by rw [hsame, hd]; congr 1; omega) rfl
  have hle : 4096 - 8 * n - 288 + 288 ≤ 4096 := by omega
  have hs := hstack.saved hf hle hrun
  refine ⟨hd, fun hlt x hx => ?_, ?_⟩
  · obtain ⟨m, hsys, hout⟩ := hs.sys
    rw [hsys]
    refine hout _ (.inl ?_)
    simp only [TASK_MM] at hx
    omega
  · rintro rfl
    have hzero := congrArg BitVec.toNat (hs.word 0 (by decide))
    have hplace : 4096 - 8 * 454 - 288 = TASK_MM := by decide
    have hfirst : 8 * ((0 : Reg) : Nat) = 0 := by decide
    have hnull : (0 : Word).toNat = 0 := by decide
    rw [Core.reg_zero, frameReg_toNat, frameWord, hplace, hfirst, Nat.add_zero, hnull] at hzero
    exact hzero

/-- The second trap on the board. -/
theorem stack_drifts_board : ∃ d d', Traps board boardHart 1 d ∧ (run (kernelSys board) 0 trapsCode).run d = .ok () d' ∧
    d.csr .sscratch = ptr 0x80300 4088 := by
  have hram : board.Ram 0x80300 := ⟨by decide, by decide⟩
  obtain ⟨d₁, hsave, hs⟩ := boardHart_stack.runs hram (by decide)
  obtain ⟨e, hrest, hret⟩ := hs.resumes hram (by decide) (.refl d₁)
  obtain ⟨husp, huser⟩ := hret.user (by decide)
  have htraps : Traps board boardHart 1 e := .succ .zero rfl (by decide) hsave (.refl d₁) hrest
  have hstack : Stack 0x80300 (3800 + 288) e (e.reg sp) := .user huser rfl
  obtain ⟨d', hrun, -⟩ := hstack.runs hram (by decide)
  refine ⟨e, d', htraps, hrun, ?_⟩
  exact (stack_drifts htraps hram boardHart_sscratch (by decide) rfl hrun).1

end Returns

end ZjuOs
