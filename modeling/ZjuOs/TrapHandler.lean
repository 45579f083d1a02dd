import ZjuOs.ForkReturns
import ZjuOs.Leakage
import ZjuOs.Timer

/-!
`trap_handler`: timer interrupts, system calls and page faults. A system call puts its result into the trap frame and
moves `sepc` to the next instruction; nothing else in the frame changes.
-/
namespace ZjuOs
open Memory Exec Rv64

abbrev REGS_A1 : Nat := 88
abbrev REGS_A2 : Nat := 96
abbrev REGS_A7 : Nat := 136
abbrev REGS_STVAL : Nat := 264
abbrev REGS_SCAUSE : Nat := 280

abbrev SYS_WRITE : Nat := 64
abbrev SYS_GETPID : Nat := 172
abbrev SYS_CLONE : Nat := 220

section Code
variable (img : Image) (site : Printk.Site)

/-- `write`, which loads its string with the rights of the kernel. -/
def sysWrite (fd buf count : Nat) : K Nat := do
  let mem := Printk.kernelByte img (← get)
  match (Printk.write mem site (BitVec.ofNat 32 fd) (BitVec.ofNat 64 buf) (BitVec.ofNat 64 count)).run ⟨[], []⟩ with
  | .ok v _ => return (v % 2 ^ 64).toNat
  | .error .endless _ => throw .diverge
  | .error _ _ => throw .fault

def getPid : K Nat := do loadWord img ((← get).current + TASK_PID)

/-- The system call `number`; one that is not known changes nothing. -/
def systemCall (number regs : Nat) : K Unit := do
  if number = SYS_WRITE then
    let fd ← loadWord img (regs + REGS_A0)
    let buf ← loadWord img (regs + REGS_A1)
    let count ← loadWord img (regs + REGS_A2)
    storeWord img (regs + REGS_A0) (← sysWrite img site fd buf count)
  else if number = SYS_GETPID then
    storeWord img (regs + REGS_A0) (← getPid img)
  else if number = SYS_CLONE then
    let pid ← doCowFork img regs
    storeWord img (regs + REGS_A0) (pid % 2 ^ 64).toNat
  else return ()

def isInterrupt (scause : Nat) : Bool := scause >>> 63 == 1

def causeCode (scause : Nat) : Nat := scause &&& 0x7fffffffffffffff

def trapHandler (fuel scause regs : Nat) : K Unit := do
  let code := causeCode scause
  if isInterrupt scause then
    if code = 5 then doTimer img fuel else return ()
  else if code = 8 then
    let number ← loadWord img (regs + REGS_A7)
    systemCall img site number regs
    let sepc ← loadWord img (regs + REGS_SEPC)
    storeWord img (regs + REGS_SEPC) ((sepc + 4) % 2 ^ 64)
  else if code = FETCH_FAULT ∨ code = LOAD_FAULT ∨ code = STORE_FAULT then
    let scause ← loadWord img (regs + REGS_SCAUSE)
    let stval ← loadWord img (regs + REGS_STVAL)
    doPageFault img { scause, stval }
  else return ()

end Code

section Trails
variable {img : Image} {site : Printk.Site}

theorem trails_ite {α : Type} {c : Prop} [Decidable c] {x y : K α} (hx : Trails x) (hy : Trails y) :
    Trails (if c then x else y) := by
  split
  · exact hx
  · exact hy

theorem grows_sysWrite (fd buf count : Nat) : Grows 0 (sysWrite img site fd buf count) := by
  refine grows_bind grows_get fun _ => ?_
  dsimp only
  split
  · exact grows_pure _
  · exact grows_throw _
  · exact grows_throw _

theorem grows_getPid : Grows 0 (getPid img) := grows_bind grows_get fun _ => grows_loadWord _

theorem trails_systemCall (number regs : Nat) : Trails (systemCall img site number regs) := by
  refine trails_ite ?_ (trails_ite ?_ (trails_ite ?_ ?_))
  · refine trails_bind (grows_loadWord _).trails fun _ => trails_bind (grows_loadWord _).trails fun _ => ?_
    refine trails_bind (grows_loadWord _).trails fun _ => trails_bind (grows_sysWrite ..).trails fun _ => ?_
    exact (grows_storeWord ..).trails
  · exact trails_bind grows_getPid.trails fun _ => (grows_storeWord ..).trails
  · exact trails_bind (grows_doCowFork _).trails fun _ => (grows_storeWord ..).trails
  · exact (grows_pure (k := 0) _).trails

/-- No trap takes an event back. -/
theorem trails_trapHandler (fuel scause regs : Nat) : Trails (trapHandler img site fuel scause regs) := by
  refine trails_ite (trails_ite (grows_doTimer _).trails (grows_pure (k := 0) _).trails) (trails_ite ?_ (trails_ite ?_ ?_))
  · refine trails_bind (grows_loadWord _).trails fun _ => trails_bind (trails_systemCall ..) fun _ => ?_
    exact trails_bind (grows_loadWord _).trails fun _ => (grows_storeWord ..).trails
  · refine trails_bind (grows_loadWord _).trails fun _ => trails_bind (grows_loadWord _).trails fun _ => ?_
    exact (grows_doPageFault _).trails
  · exact (grows_pure (k := 0) _).trails

end Trails

/-- A system call in `s` with the trap frame at byte `o` of frame `f`: its result, if it has one, and the state behind
it, with the result not yet stored. -/
inductive Called (img : Image) (site : Printk.Site) (f o : Nat) (s : KState) : Nat → Option Nat → KState → Prop
  | write {v : Nat} : (sysWrite img site (frameWord s.mem (f * 4096 + o) 10) (frameWord s.mem (f * 4096 + o) 11)
      (frameWord s.mem (f * 4096 + o) 12)).run s = .ok v s → Called img site f o s SYS_WRITE (some v) s
  | getPid {v : Nat} : (getPid img).run s = .ok v s → Called img site f o s SYS_GETPID (some v) s
  | clone {n : Int} {t : KState} : (doCowFork img (framePtr f + o)).run s = .ok n t →
      Called img site f o s SYS_CLONE (some (n % 2 ^ 64).toNat) t
  | unknown {number : Nat} : number ≠ SYS_WRITE → number ≠ SYS_GETPID → number ≠ SYS_CLONE →
      Called img site f o s number none s

/-- The result and the next `sepc` are stored. -/
def KState.answer (s : KState) (f o : Nat) (v : Option Nat) : KState :=
  let m := v.elim s.mem fun v => sd 8 s.mem (f * 4096 + o + 8 * 10) v
  s.withMem (sd 8 m (f * 4096 + o + 8 * 32) ((frameWord s.mem (f * 4096 + o) 32 + 4) % 2 ^ 64))

/-- What `trap_handler` does with a trap in `s`, whose frame lies at byte `o` of frame `f`. -/
inductive Attended (img : Image) (site : Printk.Site) (fuel f o : Nat) (s : KState) : Nat → KState → Prop
  | timer {scause : Nat} {t : KState} : isInterrupt scause = true → causeCode scause = 5 →
      (doTimer img fuel).run s = .ok () t → Attended img site fuel f o s scause t
  | interrupt {scause : Nat} : isInterrupt scause = true → causeCode scause ≠ 5 → Attended img site fuel f o s scause s
  | call {scause : Nat} {v : Option Nat} {t : KState} : isInterrupt scause = false → causeCode scause = 8 →
      Called img site f o s (frameWord s.mem (f * 4096 + o) 17) v t → Attended img site fuel f o s scause (t.answer f o v)
  | fault {scause : Nat} {t : KState} : isInterrupt scause = false →
      causeCode scause = FETCH_FAULT ∨ causeCode scause = LOAD_FAULT ∨ causeCode scause = STORE_FAULT →
      (doPageFault img ⟨frameWord s.mem (f * 4096 + o) 35, frameWord s.mem (f * 4096 + o) 33⟩).run s = .ok () t →
      Attended img site fuel f o s scause t
  | exception {scause : Nat} : isInterrupt scause = false → causeCode scause ≠ 8 →
      ¬ (causeCode scause = FETCH_FAULT ∨ causeCode scause = LOAD_FAULT ∨ causeCode scause = STORE_FAULT) →
      Attended img site fuel f o s scause s

section Handler
variable {img : Image} {site : Printk.Site} {s t : KState} {f o fuel scause number k : Nat} {v : Option Nat}

theorem ends_loadFrame {Q : Nat → KState → Prop} {E : Halt → KState → Prop} (hram : img.Ram f) (ho : o + 288 ≤ 4096)
    (hk : k < 36) :
    Ends (loadWord img (framePtr f + o + 8 * k)) s Q E ↔ Q (frameWord s.mem (f * 4096 + o) k) s := by
  rw [Nat.add_assoc, ends_loadWord hram (by omega), ← Nat.add_assoc, frameWord]

theorem ends_storeFrame {Q : Unit → KState → Prop} {E : Halt → KState → Prop} {x : Nat} (hram : img.Ram f) (ho : o + 288 ≤ 4096)
    (hk : k < 36) : Ends (storeWord img (framePtr f + o + 8 * k) x) s Q E ↔
      Q () (s.withMem (sd 8 s.mem (f * 4096 + o + 8 * k) x)) := by
  rw [Nat.add_assoc, ends_storeWord hram (by omega), ← Nat.add_assoc]

theorem sysWrite_same {fd buf count : Nat} : Ends (sysWrite img site fd buf count) s (fun _ t => t = s) fun _ _ => True := by
  rw [sysWrite]
  refine ends_bind.mpr (ends_get.mpr ?_)
  dsimp only
  split
  · exact ends_pure.mpr rfl
  · exact ends_throw.mpr trivial
  · exact ends_throw.mpr trivial

theorem loadWord_same {va : Nat} : Ends (loadWord img va) s (fun _ t => t = s) fun _ _ => True := by
  rw [loadWord, kernelPa]
  refine ends_bind.mpr ?_
  split
  · exact ends_pure.mpr (ends_bind.mpr (ends_get.mpr (ends_pure.mpr rfl)))
  · refine ends_bind.mpr (ends_get.mpr ?_)
    split
    · split
      · exact ends_pure.mpr (ends_bind.mpr (ends_get.mpr (ends_pure.mpr rfl)))
      · exact ends_throw.mpr trivial
    · exact ends_throw.mpr trivial

theorem getPid_same : Ends (getPid img) s (fun _ t => t = s) fun _ _ => True := ends_bind.mpr (ends_get.mpr loadWord_same)

theorem systemCall_called (hram : img.Ram f) (ho : o + 288 ≤ 4096) :
    Ends (systemCall img site number (framePtr f + o)) s
      (fun _ u => ∃ v t, Called img site f o s number v t ∧
        u = t.withMem (v.elim t.mem fun v => sd 8 t.mem (f * 4096 + o + 8 * 10) v)) fun _ _ => True := by
  rw [systemCall]
  by_cases hw : number = SYS_WRITE
  · rw [if_pos hw, hw]
    refine ends_bind.mpr ((ends_loadFrame (k := 10) hram ho (by decide)).mpr ?_)
    refine ends_bind.mpr ((ends_loadFrame (k := 11) hram ho (by decide)).mpr ?_)
    refine ends_bind.mpr ((ends_loadFrame (k := 12) hram ho (by decide)).mpr ?_)
    refine ends_bind.mpr (sysWrite_same.ran.mono ?_ fun _ _ _ => trivial)
    rintro v _ ⟨rfl, hrun⟩
    exact (ends_storeFrame (k := 10) hram ho (by decide)).mpr ⟨some v, _, .write hrun, rfl⟩
  rw [if_neg hw]
  by_cases hg : number = SYS_GETPID
  · rw [if_pos hg, hg]
    refine ends_bind.mpr (getPid_same.ran.mono ?_ fun _ _ _ => trivial)
    rintro v _ ⟨rfl, hrun⟩
    exact (ends_storeFrame (k := 10) hram ho (by decide)).mpr ⟨some v, _, .getPid hrun, rfl⟩
  rw [if_neg hg]
  by_cases hc : number = SYS_CLONE
  · rw [if_pos hc, hc]
    refine ends_bind.mpr (ends_true.ran.mono ?_ fun _ _ _ => trivial)
    rintro n t ⟨-, hrun⟩
    exact (ends_storeFrame (k := 10) hram ho (by decide)).mpr ⟨some _, t, .clone hrun, rfl⟩
  · rw [if_neg hc]
    exact ends_pure.mpr ⟨none, s, .unknown hw hg hc, rfl⟩

theorem trapHandler_attended (hram : img.Ram f) (ho : o + 288 ≤ 4096) :
    Ends (trapHandler img site fuel scause (framePtr f + o)) s (fun _ t => Attended img site fuel f o s scause t)
      fun _ _ => True := by
  rw [trapHandler]
  by_cases hint : isInterrupt scause = true
  · rw [if_pos hint]
    by_cases hcode : causeCode scause = 5
    · rw [if_pos hcode]
      refine ends_true.ran.mono ?_ fun _ _ _ => trivial
      rintro _ t ⟨-, hrun⟩
      exact .timer hint hcode hrun
    · rw [if_neg hcode]
      exact ends_pure.mpr (.interrupt hint hcode)
  rw [if_neg hint]
  rw [Bool.not_eq_true] at hint
  by_cases hcall : causeCode scause = 8
  · rw [if_pos hcall]
    refine ends_bind.mpr ((ends_loadFrame (k := 17) hram ho (by decide)).mpr ?_)
    refine ends_bind.mpr ((systemCall_called hram ho).mono ?_ fun _ _ _ => trivial)
    rintro _ _ ⟨v, t, hcalled, rfl⟩
    refine ends_bind.mpr ((ends_loadFrame (k := 32) hram ho (by decide)).mpr ?_)
    refine (ends_storeFrame (k := 32) hram ho (by decide)).mpr ?_
    have hsepc : frameWord (v.elim t.mem fun v => sd 8 t.mem (f * 4096 + o + 8 * 10) v) (f * 4096 + o) 32 =
        frameWord t.mem (f * 4096 + o) 32 := by
      cases v with
      | none => rfl
      | some v => exact ld_sd_of_disjoint (by omega)
    rw [KState.withMem_withMem, KState.withMem_mem, hsepc]
    exact .call hint hcall hcalled
  rw [if_neg hcall]
  by_cases hfault : causeCode scause = FETCH_FAULT ∨ causeCode scause = LOAD_FAULT ∨ causeCode scause = STORE_FAULT
  · rw [if_pos hfault]
    refine ends_bind.mpr ((ends_loadFrame (k := 35) hram ho (by decide)).mpr ?_)
    refine ends_bind.mpr ((ends_loadFrame (k := 33) hram ho (by decide)).mpr ?_)
    refine ends_true.ran.mono ?_ fun _ _ _ => trivial
    rintro _ t ⟨-, hrun⟩
    exact .fault hint hfault hrun
  · rw [if_neg hfault]
    exact ends_pure.mpr (.exception hint hcall hfault)

/-- A call with a number that is not known returns. -/
theorem ends_trapHandler_unknown {Q : Unit → KState → Prop} {E : Halt → KState → Prop} (hram : img.Ram f) (ho : o + 288 ≤ 4096)
    (hint : isInterrupt scause = false) (hcode : causeCode scause = 8)
    (hnumber : frameWord s.mem (f * 4096 + o) 17 ∉ [SYS_WRITE, SYS_GETPID, SYS_CLONE]) :
    Ends (trapHandler img site fuel scause (framePtr f + o)) s Q E ↔ Q () (s.answer f o none) := by
  simp only [List.mem_cons, List.not_mem_nil, or_false, not_or] at hnumber
  obtain ⟨hwrite, hgetpid, hclone⟩ := hnumber
  have hint' : ¬ isInterrupt scause = true := by rw [hint]; exact Bool.noConfusion
  rw [trapHandler, if_neg hint', if_pos hcode, ends_bind, ends_loadFrame (k := 17) hram ho (by decide), systemCall, if_neg hwrite,
    if_neg hgetpid, if_neg hclone, ends_bind, ends_pure, ends_bind, ends_loadFrame (k := 32) hram ho (by decide),
    ends_storeFrame (k := 32) hram ho (by decide)]
  rfl

/-- The result and the next `sepc` stand in the frame, beside the words that were there. -/
theorem frameWord_answer : frameWord (s.answer f o v).mem (f * 4096 + o) k =
    if k = 32 then (frameWord s.mem (f * 4096 + o) 32 + 4) % 2 ^ 64
    else if k = 10 then v.elim (frameWord s.mem (f * 4096 + o) 10) (· % 2 ^ 64) else frameWord s.mem (f * 4096 + o) k := by
  rw [KState.answer, KState.withMem_mem]
  by_cases h32 : k = 32
  · rw [if_pos h32, h32, frameWord, ld_sd_self]
    exact Nat.mod_mod ..
  rw [if_neg h32, frameWord, ld_sd_of_disjoint (by omega)]
  cases v with
  | none =>
      split
      · next h10 => rw [h10]; rfl
      · rfl
  | some v =>
      by_cases h10 : k = 10
      · rw [if_pos h10, h10]
        exact ld_sd_self ..
      · rw [if_neg h10]
        exact ld_sd_of_disjoint (by omega)

theorem answer_outside {x : Nat} (hx : x < f * 4096 + o ∨ f * 4096 + o + 288 ≤ x) : (s.answer f o v).mem x = s.mem x := by
  have hout : ∀ k, k < 36 → x < f * 4096 + o + 8 * k ∨ f * 4096 + o + 8 * k + 8 ≤ x := fun k hk => by
    refine hx.imp (fun h => h.trans_le (Nat.le_add_right ..)) fun h => le_trans ?_ h
    rw [Nat.add_assoc]
    exact Nat.add_le_add_left (by omega) _
  rw [KState.answer, KState.withMem_mem, sd_outside (hout 32 (by decide))]
  cases v with
  | none => rfl
  | some v => exact sd_outside (hout 10 (by decide))

end Handler

/-- What the kernel does for task `i` in a trap that is no interrupt. -/
inductive Acts (img : Image) (f o : Nat) (s : KState) : KState → Prop
  | rest : Acts img f o s s
  | fork {n : Int} {t : KState} : (doCowFork img (framePtr f + o)).run s = .ok n t → Acts img f o s t
  | fault {regs : PtRegs} {t : KState} : (doPageFault img regs).run s = .ok () t → Acts img f o s t

/-- The handler of the trap, called in `d`, has done its work in `t`, and returns in `d'`. Below the trap frame it has
written to the stack of the kernel. -/
structure HandlerCall (img : Image) (site : Printk.Site) (fuel f o : Nat) (d : Hart) (t : KState) (d' : Hart) : Prop where
  run : (trapHandler img site fuel (d.reg a0).toNat (d.reg a2).toNat).run d.sys = .ok () t
  sp : d'.reg sp = d.reg sp
  sys : ∃ m, d'.sys = t.withMem m ∧ ∀ x, m x ≠ t.mem x → ∃ b, TASK_MM + 8 ≤ b ∧ b < o ∧ x = f * 4096 + b

/-- What the task that has trapped in `c` finds in `e`. The handler was called in `s`, and the kernel has acted for the
task in `u`. -/
inductive Excepted (img : Image) (site : Printk.Site) (f o : Nat) (c : Hart) (s u : KState) (e : Hart) : Prop
  | call {v : Option Nat} : causeCode (c.csr .scause).toNat = 8 → Called img site f o s (c.reg a7).toNat v u →
      e.csr .sepc = c.csr .sepc + 4 → e.reg a0 = v.elim (c.reg a0) (BitVec.ofNat 64) → Excepted img site f o c s u e
  | fault : causeCode (c.csr .scause).toNat ∈ [FETCH_FAULT, LOAD_FAULT, STORE_FAULT] →
      (doPageFault img ⟨(c.csr .scause).toNat, (c.csr .stval).toNat⟩).run s = .ok () u →
      e.csr .sepc = c.csr .sepc → e.reg a0 = c.reg a0 → Excepted img site f o c s u e
  | ignored : causeCode (c.csr .scause).toNat ∉ [8, FETCH_FAULT, LOAD_FAULT, STORE_FAULT] → u = s →
      e.csr .sepc = c.csr .sepc → e.reg a0 = c.reg a0 → Excepted img site f o c s u e

section Returns
variable {img : Image} {site : Printk.Site} {s t u : KState} {c d d' : Hart} {m : Mem} {f i o fuel scause : Nat} {w : Word}
  {v : Option Nat}

theorem Called.acts {number : Nat} (h : Called img site f o s number v t) : Acts img f o s t := by
  cases h with
  | write _ => exact .rest
  | getPid _ => exact .rest
  | clone hrun => exact .fork hrun
  | unknown _ _ _ => exact .rest

theorem Acts.trace_suffix (h : Acts img f o s t) : s.trace <:+ t.trace := by
  cases h with
  | rest => exact List.suffix_refl _
  | fork hrun => exact (((grows_doCowFork (framePtr f + o)).run s).of_ok hrun).trace
  | fault hrun => exact (((grows_doPageFault _).run s).of_ok hrun).trace

/-- The frame of the trap and the task are as they were. -/
theorem Acts.kept (h : Acts img f o s t) (hreach : Reachable img (fun _ _ => True) s) (hi : s.Runs i) (hf : s.task i = framePtr f)
    (hlo : TASK_MM + 8 ≤ o) (hhi : o + 288 ≤ 4096) (hclean : TablesClean t.trace) :
    Reachable img (fun _ _ => True) t ∧ t.Runs i ∧ t.task i = framePtr f ∧ SameFrame t.mem s.mem f := by
  obtain ⟨lay, hinv⟩ := hreach.inv (hclean.suffix h.trace_suffix)
  have ok := hinv.paging.task_ok hi.1
  obtain rfl : lay.page i = f := hinv.paging.page_eq hi.1 hf
  have hram := hinv.paging.page_ram hi.1
  have hstep : ∀ {a : Act}, Step img s a t → a ≠ .kernel → (∀ j, a ≠ .switch j) →
      Reachable img (fun _ _ => True) t ∧ t.Runs i ∧ t.task i = framePtr (lay.page i) ∧ SameFrame t.mem s.mem (lay.page i) := by
    intro a hs hkernel hswitch
    obtain ⟨lay', hstepped, -⟩ := hinv.step hs hclean
    have htask := hstepped.task_kept hinv hi.1.2.2
    refine ⟨hreach.step trivial hs, ⟨⟨hi.1.1, hi.1.2.1, by rw [htask]; exact hi.1.2.2⟩, ?_⟩, htask.trans hf,
      hstepped.task_frame hinv hkernel ok.page⟩
    rw [hstepped.current hinv hswitch, htask]
    exact hi.2
  cases h with
  | rest => exact ⟨hreach, hi, hf, fun _ _ => rfl⟩
  | fork hrun =>
      exact hstep (.fork hi (framePtr_lt hram (by omega)) (inFrame_of hlo hhi) hrun) Act.noConfusion fun _ => Act.noConfusion
  | fault hrun => exact hstep (.fault hi hrun) Act.noConfusion fun _ => Act.noConfusion

/-- The stores of the kernel are not visible in the memories of the tasks. -/
theorem Reachable.written (h : Reachable img (fun _ _ => True) s) (hclean : TablesClean s.trace)
    (hm : ∀ x, m x ≠ s.mem x → s.KernelByte x) :
    Reachable img (fun _ _ => True) (s.withMem m) ∧ (s.withMem m).pages = s.pages := by
  have hstep := h.kernelStep hclean hm
  refine ⟨h.step trivial hstep, ?_⟩
  obtain ⟨e, he, hpages⟩ := h.seems hstep hclean
  cases he
  exact hpages

/-- A trap that is no timer interrupt. -/
theorem Attended.acts (h : Attended img site fuel f o s scause t) (hno : ¬ (isInterrupt scause = true ∧ causeCode scause = 5)) :
    ∃ u, Acts img f o s u ∧ ((∃ v, t = u.answer f o v) ∨ t = u) := by
  cases h with
  | timer hint hcode _ => exact absurd ⟨hint, hcode⟩ hno
  | interrupt _ _ => exact ⟨_, .rest, .inr rfl⟩
  | call _ _ hcalled => exact ⟨_, hcalled.acts, .inl ⟨_, rfl⟩⟩
  | fault _ _ hrun => exact ⟨_, .fault hrun, .inr rfl⟩
  | exception _ _ _ => exact ⟨_, .rest, .inr rfl⟩

theorem Attended.ticks (h : Attended img site fuel f o s scause t) (hint : isInterrupt scause = true)
    (hcode : causeCode scause = 5) : (doTimer img fuel).run s = .ok () t := by
  cases h with
  | timer _ _ hdone => exact hdone
  | interrupt _ hno => exact absurd hcode hno
  | call hno _ _ => exact absurd (hno.symm.trans hint) Bool.noConfusion
  | fault hno _ _ => exact absurd (hno.symm.trans hint) Bool.noConfusion
  | exception hno _ _ => exact absurd (hno.symm.trans hint) Bool.noConfusion

/-- The words of an answer lie in the frame. -/
theorem answer_byte {x : Nat} (hlo : TASK_MM + 8 ≤ o) (hhi : o + 288 ≤ 4096) (hx : (s.answer f o v).mem x ≠ s.mem x) :
    ∃ y, TASK_MM + 8 ≤ y ∧ y < 4096 ∧ x = f * 4096 + y := by
  have hin : ¬ (x < f * 4096 + o ∨ f * 4096 + o + 288 ≤ x) := fun hno => hx (answer_outside hno)
  obtain ⟨y, rfl⟩ := Nat.exists_eq_add_of_le (show f * 4096 ≤ x by omega)
  exact ⟨y, by omega, by omega, rfl⟩

/-- The kernel has acted in `u`, changed the frame in `t` and its stack in `d'`, and returns. -/
theorem Saved.leaves (hs : Saved f o w c d) (hreach : Reachable img (fun _ _ => True) d.sys) (hi : d.sys.Runs i)
    (hf : d.sys.task i = framePtr f) (hram : img.Ram f) (hlo : TASK_MM + 8 ≤ o) (hhi : o + 288 ≤ 4096)
    (hcall : HandlerCall img site fuel f o d t d') (hacts : Acts img f o d.sys u) (ht : t = u.withMem t.mem)
    (hbyte : ∀ x, t.mem x ≠ u.mem x → u.KernelByte x)
    (hword : ∀ j, j < 36 → j ≠ 10 → j ≠ 32 → frameWord t.mem (f * 4096 + o) j = frameWord u.mem (f * 4096 + o) j)
    (hclean : TablesClean t.trace) :
    ∃ e, (run (kernelSys img) 0 retFromForkCode).run d' = .ok () e ∧ Returned f o w c e ∧
      (Reachable img (fun _ _ => True) e.sys ∧ e.sys.Runs i ∧ e.sys.pages = u.pages) ∧
      e.csr .sepc = frameReg t.mem (f * 4096 + o) 32 ∧ e.reg a0 = frameReg t.mem (f * 4096 + o) 10 := by
  have htrace : TablesClean u.trace := by
    rw [ht] at hclean
    exact hclean
  obtain ⟨hreach', hruns, htask, hsame⟩ := hacts.kept hreach hi hf hlo hhi htrace
  obtain ⟨m, hsys, hstack⟩ := hcall.sys
  have hd' : d'.sys = u.withMem m := by
    rw [hsys, ht]
    rfl
  obtain ⟨hnow, hpages⟩ := hreach'.written htrace (m := m) fun x hx => by
    by_cases hm : m x = t.mem x
    · exact hbyte x (by rwa [← hm])
    · obtain ⟨b, hb, hbo, rfl⟩ := hstack x hm
      exact .inl ⟨b, hb, by omega, by rw [hruns.2, htask, VA2PA_page hram]⟩
  -- the frame is above the stack
  have hframe : ∀ j, j < 36 → frameWord d'.sys.mem (f * 4096 + o) j = frameWord t.mem (f * 4096 + o) j := fun j hj => by
    rw [hd', frameWord, frameWord]
    refine ld_congr fun x hx _ => ?_
    by_contra hne
    obtain ⟨b, -, hbo, rfl⟩ := hstack x hne
    omega
  have hh : Handled d d' := by
    refine ⟨hcall.sp, ?_⟩
    rw [hs.sp, ptr_toNat hram (by omega), VA2PA_framePtr hram (by omega)]
    intro j hj h10 h32
    rw [frameReg, frameReg, hframe j hj, hword j hj h10 h32]
    exact congrArg (BitVec.ofNat 64) (frameWord_of_bytes (by simp only [TASK_MM, TASK_PGD] at *; omega) hhi
      (fun x _ hx => hsame x hx) hj)
  have hspec := ends_retFromFork hram (hh.sp.trans hs.sp) hhi
  cases hrun : (run (kernelSys img) 0 retFromForkCode).run d' with
  | error x e => exact (hspec.of_error hrun).elim
  | ok _ e =>
      have he := hspec.of_ok hrun
      have hret := hs.returned hram hhi hh he
      refine ⟨e, rfl, hret, ?_, ?_, ?_⟩
      · rw [he.sys, hd']
        exact ⟨hnow, hruns, hpages⟩
      · rw [hret.sepc, he.sys, frameReg, hframe 32 (by decide), frameReg]
      · rw [hret.result, he.sys, frameReg, hframe 10 (by decide), frameReg]

/-- A trap that is no interrupt returns to its task. Behind a system call the task finds its result in `a0`, behind a page
fault it tries the same instruction with the same registers again; the memories of the tasks are as the kernel has left
them, and the run goes on with the same task. -/
theorem exception_returns (h : Reachable img (fun _ _ => True) c.sys) (hi : c.sys.Runs i) (hf : c.sys.task i = framePtr f)
    (hstack : Stack f (o + 288) c w) (hlo : TASK_MM + 8 ≤ o) (hhi : o + 288 ≤ 4096)
    (htrap : (run (kernelSys img) 0 trapsCode).run c = .ok () d) (hint : isInterrupt (c.csr .scause).toNat = false)
    (hcall : HandlerCall img site fuel f o d t d') (hclean : TablesClean t.trace) :
    ∃ e u, (run (kernelSys img) 0 retFromForkCode).run d' = .ok () e ∧ Returned f o w c e ∧
      (Reachable img (fun _ _ => True) e.sys ∧ e.sys.Runs i ∧ e.sys.pages = u.pages) ∧ Excepted img site f o c d.sys u e := by
  have hclean' : TablesClean d.sys.trace := hclean.suffix (((trails_trapHandler ..).run d.sys).of_ok hcall.run)
  obtain ⟨hram, hs, hreach, htask⟩ := hstack.calls h hi hf hlo hhi htrap .refl hclean'
  have hturn := hs.written hram (hi.2.trans hf) hlo hhi
  have hruns : d.sys.Runs i := by
    obtain ⟨m, -, hd⟩ := hturn
    rw [hd]
    exact hi
  have hnumber : frameWord d.sys.mem (f * 4096 + o) 17 = (c.reg a7).toNat := by
    rw [← hs.word a7 (by decide)]
    exact frameReg_toNat.symm
  have hattended := hcall.run
  rw [hs.regs, ptr_toNat hram (by omega), hs.scause] at hattended
  have hattended' := (trapHandler_attended hram hhi).of_ok hattended
  have hframe : ∀ {u : KState}, Acts img f o d.sys u → TablesClean u.trace → ∀ j, j < 36 →
      frameWord u.mem (f * 4096 + o) j = frameWord d.sys.mem (f * 4096 + o) j := fun hacts hu j hj =>
    frameWord_of_bytes (by simp only [TASK_MM, TASK_PGD] at *; omega) hhi
      (fun x _ hx => (hacts.kept hreach hruns (htask.trans hf) hlo hhi hu).2.2.2 x hx) hj
  have hsepc : frameReg d.sys.mem (f * 4096 + o) 32 = c.csr .sepc := hs.wordSepc
  have ha0 : frameReg d.sys.mem (f * 4096 + o) 10 = c.reg a0 := hs.word a0 (by decide)
  -- the frame of a trap that is no system call is as it was
  have hplain : Acts img f o d.sys t → ∃ e, (run (kernelSys img) 0 retFromForkCode).run d' = .ok () e ∧ Returned f o w c e ∧
      (Reachable img (fun _ _ => True) e.sys ∧ e.sys.Runs i ∧ e.sys.pages = t.pages) ∧
      e.csr .sepc = c.csr .sepc ∧ e.reg a0 = c.reg a0 := fun hacts => by
    obtain ⟨e, hrun, hret, hsys, h32, h10⟩ := hs.leaves hreach hruns (htask.trans hf) hram hlo hhi hcall hacts rfl
      (fun _ hx => absurd rfl hx) (fun _ _ _ _ => rfl) hclean
    refine ⟨e, hrun, hret, hsys, ?_, ?_⟩
    · rw [h32, frameReg, hframe hacts hclean 32 (by decide), ← hsepc, frameReg]
    · rw [h10, frameReg, hframe hacts hclean 10 (by decide), ← ha0, frameReg]
  cases hattended' with
  | timer hno _ _ => exact absurd (hno.symm.trans hint) Bool.noConfusion
  | interrupt hno _ => exact absurd (hno.symm.trans hint) Bool.noConfusion
  | @call v u _ hcode hcalled =>
      rw [hnumber] at hcalled
      have hacts := hcalled.acts
      obtain ⟨-, hlive, hu, -⟩ := hacts.kept hreach hruns (htask.trans hf) hlo hhi hclean
      obtain ⟨e, hrun, hret, hsys, h32, h10⟩ := hs.leaves hreach hruns (htask.trans hf) hram hlo hhi hcall hacts rfl
        (fun x hx => by
          obtain ⟨y, hy, hy', rfl⟩ := answer_byte hlo hhi hx
          exact .inl ⟨y, hy, hy', by rw [hlive.2, hu, VA2PA_page hram]⟩)
        (fun j _ h10 h32 => by rw [frameWord_answer, if_neg h32, if_neg h10]) hclean
      refine ⟨e, u, hrun, hret, hsys, .call hcode hcalled ?_ ?_⟩
      · rw [h32, frameReg, frameWord_answer, if_pos rfl, hframe hacts hclean 32 (by decide), ← frameReg_toNat, hsepc]
        exact BitVec.eq_of_toNat_eq (by rw [BitVec.toNat_ofNat, BitVec.toNat_add, Nat.mod_mod]; rfl)
      · rw [h10, frameReg, frameWord_answer, if_neg (by decide), if_pos rfl, hframe hacts hclean 10 (by decide)]
        cases v with
        | none => exact ha0
        | some v =>
            refine BitVec.eq_of_toNat_eq ?_
            rw [Option.elim_some, Option.elim_some, BitVec.toNat_ofNat, BitVec.toNat_ofNat, Nat.mod_mod]
  | fault _ hcode hdone =>
      obtain ⟨e, hrun, hret, hsys, h32, h10⟩ := hplain (.fault hdone)
      rw [← frameReg_toNat, ← frameReg_toNat, hs.wordScause, hs.wordStval] at hdone
      refine ⟨e, t, hrun, hret, hsys, .fault ?_ hdone h32 h10⟩
      simpa only [List.mem_cons, List.not_mem_nil, or_false] using hcode
  | exception _ hcode hno =>
      obtain ⟨e, hrun, hret, hsys, h32, h10⟩ := hplain .rest
      refine ⟨e, _, hrun, hret, hsys, .ignored ?_ rfl h32 h10⟩
      simp only [List.mem_cons, List.not_mem_nil, or_false, not_or] at hno ⊢
      exact ⟨hcode, hno⟩

/-- An `ecall` with a number that is not known, on the board. -/
theorem exception_returns_board : ∃ site f c d t d' e u, (run (kernelSys board) 0 trapsCode).run c = .ok () d ∧
    HandlerCall board site 1 f 3808 d t d' ∧ (run (kernelSys board) 0 retFromForkCode).run d' = .ok () e ∧
    Excepted board site f 3808 c d.sys u e := by
  obtain ⟨lay, s, h, -⟩ := board_entered (n := 8) (by decide)
  have hram := h.room.inv.paging.page_ram h.runs.1
  have hf := (h.room.inv.paging.task_ok h.runs.1).ptr
  obtain ⟨f, hfeq⟩ : ∃ f, f = lay.page 1 := ⟨_, rfl⟩
  rw [← hfeq] at hram hf
  -- the trap
  obtain ⟨c, d, rfl, hx, hcsr, hstack, htrap, hs⟩ := user_traps hram s 8
  have hcause : c.csr .scause = 8 := hcsr _ (by decide)
  have hnumber : frameWord d.sys.mem (f * 4096 + 3808) 17 = 1 := by
    rw [← frameReg_toNat]
    refine (congrArg BitVec.toNat (hs.word a7 (by decide))).trans ?_
    rw [Core.reg, if_neg (by decide), hx]
    rfl
  obtain ⟨site⟩ : Nonempty Printk.Site := ⟨0, 0⟩
  have hhandler : (trapHandler board site 1 (d.reg a0).toNat (d.reg a2).toNat).run d.sys = .ok () (d.sys.answer f 3808 none) := by
    rw [hs.regs, ptr_toNat hram (by decide), hs.scause, hcause]
    refine Ends.run_eq ((ends_trapHandler_unknown hram (by decide) (by decide) (by decide) ?_).mpr ⟨rfl, rfl⟩)
    rw [hnumber]
    decide
  have hcall : HandlerCall board site 1 f 3808 d (d.sys.answer f 3808 none) (d.withSys (d.sys.answer f 3808 none)) :=
    ⟨hhandler, rfl, _, rfl, fun x hx => absurd rfl hx⟩
  have hclean : TablesClean (d.sys.answer f 3808 none).trace := by
    obtain ⟨m, hd, -⟩ := hs.sys
    rw [hd]
    exact h.room.clean
  obtain ⟨e, u, hrest, -, -, hexcepted⟩ := exception_returns h.reach h.runs hf hstack (by decide) (by decide) htrap
    (by rw [hcause]; decide) hcall hclean
  exact ⟨site, f, c, d, _, _, e, u, htrap, hcall, hrest, hexcepted⟩

end Returns

end ZjuOs
