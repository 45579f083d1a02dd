import Mathlib.Data.BitVec
import ZjuOs.Exec

/-!
# Straight-line supervisor code of RV64

Registers, control registers and the instructions that save and restore them, over any memory system. A branch
goes forward and skips instructions; a piece of code ends behind its last instruction.
-/
namespace Rv64

abbrev Word : Type := BitVec 64

abbrev Reg : Type := Fin 32

section Names

abbrev x0 : Reg := 0
abbrev ra : Reg := 1
abbrev sp : Reg := 2
abbrev t0 : Reg := 5
abbrev t1 : Reg := 6
abbrev t2 : Reg := 7
abbrev s0 : Reg := 8
abbrev s1 : Reg := 9
abbrev a0 : Reg := 10
abbrev a1 : Reg := 11
abbrev a2 : Reg := 12
abbrev a7 : Reg := 17
abbrev s2 : Reg := 18
abbrev s3 : Reg := 19
abbrev s4 : Reg := 20
abbrev s5 : Reg := 21
abbrev s6 : Reg := 22
abbrev s7 : Reg := 23
abbrev s8 : Reg := 24
abbrev s9 : Reg := 25
abbrev s10 : Reg := 26
abbrev s11 : Reg := 27
abbrev t3 : Reg := 28

end Names

inductive Csr
  | sscratch
  | sepc
  | stval
  | scause
  | sstatus
  deriving DecidableEq

inductive Instr
  | csrrw (rd : Reg) (csr : Csr) (rs : Reg)
  | csrr (rd : Reg) (csr : Csr)
  | csrw (csr : Csr) (rs : Reg)
  | bnez (rs : Reg) (skip : Nat)
  | addi (rd rs : Reg) (imm : Int)
  | li (rd : Reg) (imm : Word)
  | add (rd rs rt : Reg)
  | sub (rd rs rt : Reg)
  | or (rd rs rt : Reg)
  | srli (rd rs : Reg) (n : Nat)
  | ld (rd : Reg) (off : Nat) (rs : Reg)
  | sd (rt : Reg) (off : Nat) (rs : Reg)
  | satp (rs : Reg)
  | sfenceVma

/-- The memory system: doublewords by address, the selected root table, and the fence. -/
structure Sys (ε σ : Type) where
  load : Word → EStateM ε σ Word
  store : Word → Word → EStateM ε σ Unit
  setSatp : Word → EStateM ε σ Unit
  fence : EStateM ε σ Unit

structure Core (σ : Type) where
  x : Reg → Word
  csr : Csr → Word
  sys : σ

section Core
variable {ε σ : Type}

namespace Core

/-- `x0` is zero. -/
def reg (c : Core σ) (r : Reg) : Word := if r = 0 then 0 else c.x r

@[simps -fullyApplied] def set (c : Core σ) (r : Reg) (v : Word) : Core σ := { c with x := Function.update c.x r v }

@[simps -fullyApplied] def setCsr (c : Core σ) (r : Csr) (v : Word) : Core σ :=
  { c with csr := Function.update c.csr r v }

@[simps -fullyApplied] def withSys (c : Core σ) (sys : σ) : Core σ := { c with sys }

end Core

/-- A computation of the memory system. -/
def onSys {α : Type} (x : EStateM ε σ α) : EStateM ε (Core σ) α := fun c =>
  match x.run c.sys with
  | .ok a s => .ok a (c.withSys s)
  | .error e s => .error e (c.withSys s)

def address (c : Core σ) (off : Nat) (rs : Reg) : Word := c.reg rs + BitVec.ofNat 64 off

/-- One instruction; it returns how many of the next ones are skipped. -/
def exec (sys : Sys ε σ) : Instr → EStateM ε (Core σ) Nat
  | .csrrw rd csr rs => do
      modify fun c => (c.setCsr csr (c.reg rs)).set rd (c.csr csr)
      return 0
  | .csrr rd csr => do
      modify fun c => c.set rd (c.csr csr)
      return 0
  | .csrw csr rs => do
      modify fun c => c.setCsr csr (c.reg rs)
      return 0
  | .bnez rs skip => return if (← get).reg rs = 0 then 0 else skip
  | .addi rd rs imm => do
      modify fun c => c.set rd (c.reg rs + BitVec.ofInt 64 imm)
      return 0
  | .li rd imm => do
      modify fun c => c.set rd imm
      return 0
  | .add rd rs rt => do
      modify fun c => c.set rd (c.reg rs + c.reg rt)
      return 0
  | .sub rd rs rt => do
      modify fun c => c.set rd (c.reg rs - c.reg rt)
      return 0
  | .or rd rs rt => do
      modify fun c => c.set rd (c.reg rs ||| c.reg rt)
      return 0
  | .srli rd rs n => do
      modify fun c => c.set rd (c.reg rs >>> n)
      return 0
  | .ld rd off rs => do
      let v ← onSys (sys.load (address (← get) off rs))
      modify fun c => c.set rd v
      return 0
  | .sd rt off rs => do
      let c ← get
      onSys (sys.store (address c off rs) (c.reg rt))
      return 0
  | .satp rs => do
      onSys (sys.setSatp ((← get).reg rs))
      return 0
  | .sfenceVma => do
      onSys sys.fence
      return 0

/-- A piece of code, with instructions to be skipped first. -/
def run (sys : Sys ε σ) : Nat → List Instr → EStateM ε (Core σ) Unit
  | _, [] => return ()
  | skip + 1, _ :: is => run sys skip is
  | 0, i :: is => do
      let skip ← exec sys i
      run sys skip is

end Core

section Rules
open Exec
variable {ε σ α : Type} {sys : Sys ε σ} {c d : Core σ} {r r' rd rs rt : Reg} {q q' : Csr} {v : Word} {is js : List Instr} {i : Instr}
  {Q : Unit → Core σ → Prop} {E : ε → Core σ → Prop}

namespace Core

@[simp] theorem reg_zero : c.reg 0 = 0 := rfl

theorem reg_eq (h : r ≠ 0) : c.reg r = c.x r := if_neg h

@[simp] theorem reg_set_self (h : r ≠ 0) : (c.set r v).reg r = v := by
  rw [reg_eq h, set_x, Function.update_self]

theorem reg_set_of_ne (h : r' ≠ r) : (c.set r v).reg r' = c.reg r' := by
  rw [reg, reg, set_x, Function.update_of_ne h]

@[simp] theorem reg_setCsr : (c.setCsr q v).reg r = c.reg r := rfl

@[simp] theorem reg_withSys {s : σ} : (c.withSys s).reg r = c.reg r := rfl

@[simp] theorem csr_setCsr_self : (c.setCsr q v).csr q = v := by rw [setCsr_csr, Function.update_self]

theorem csr_setCsr_of_ne (h : q' ≠ q) : (c.setCsr q v).csr q' = c.csr q' := by
  rw [setCsr_csr, Function.update_of_ne h]

end Core

theorem ends_onSys {x : EStateM ε σ α} {Q : α → Core σ → Prop} :
    Ends (onSys x) c Q E ↔ Ends x c.sys (fun a s => Q a (c.withSys s)) fun e s => E e (c.withSys s) := by
  cases hx : x.run c.sys with
  | ok a s =>
      have hrun : (onSys x).run c = .ok a (c.withSys s) := by
        rw [EStateM.run, onSys, hx]
      rw [ends_iff_of_ok hrun, ends_iff_of_ok hx]
  | error e s =>
      have hrun : (onSys x).run c = .error e (c.withSys s) := by
        rw [EStateM.run, onSys, hx]
      rw [ends_iff_of_error hrun, ends_iff_of_error hx]

theorem ends_run_nil {skip : Nat} : Ends (run sys skip []) c Q E ↔ Q () c := by
  cases skip <;> exact ends_pure

theorem ends_run_skip {skip : Nat} : Ends (run sys (skip + 1) (i :: is)) c Q E ↔ Ends (run sys skip is) c Q E := Iff.rfl

theorem ends_run_cons : Ends (run sys 0 (i :: is)) c Q E ↔
    Ends (exec sys i) c (fun skip d => Ends (run sys skip is) d Q E) E := ends_bind

/-- An instruction that only changes the state of the core. -/
theorem ends_run_modify {f : Core σ → Core σ} (h : exec sys i = (do modify f; return 0)) :
    Ends (run sys 0 (i :: is)) c Q E ↔ Ends (run sys 0 is) (f c) Q E := by
  rw [ends_run_cons, h, ends_bind, ends_modify, ends_pure]

theorem ends_csrrw : Ends (run sys 0 (.csrrw rd q rs :: is)) c Q E ↔
    Ends (run sys 0 is) ((c.setCsr q (c.reg rs)).set rd (c.csr q)) Q E :=
  ends_run_modify (f := fun c : Core σ => (c.setCsr q (c.reg rs)).set rd (c.csr q)) rfl

theorem ends_csrr : Ends (run sys 0 (.csrr rd q :: is)) c Q E ↔ Ends (run sys 0 is) (c.set rd (c.csr q)) Q E :=
  ends_run_modify (f := fun c : Core σ => c.set rd (c.csr q)) rfl

theorem ends_csrw : Ends (run sys 0 (.csrw q rs :: is)) c Q E ↔ Ends (run sys 0 is) (c.setCsr q (c.reg rs)) Q E :=
  ends_run_modify (f := fun c : Core σ => c.setCsr q (c.reg rs)) rfl

theorem ends_addi {imm : Int} : Ends (run sys 0 (.addi rd rs imm :: is)) c Q E ↔
    Ends (run sys 0 is) (c.set rd (c.reg rs + BitVec.ofInt 64 imm)) Q E :=
  ends_run_modify (f := fun c : Core σ => c.set rd (c.reg rs + BitVec.ofInt 64 imm)) rfl

theorem ends_li : Ends (run sys 0 (.li rd v :: is)) c Q E ↔ Ends (run sys 0 is) (c.set rd v) Q E :=
  ends_run_modify (f := fun c : Core σ => c.set rd v) rfl

theorem ends_add : Ends (run sys 0 (.add rd rs rt :: is)) c Q E ↔
    Ends (run sys 0 is) (c.set rd (c.reg rs + c.reg rt)) Q E :=
  ends_run_modify (f := fun c : Core σ => c.set rd (c.reg rs + c.reg rt)) rfl

theorem ends_sub : Ends (run sys 0 (.sub rd rs rt :: is)) c Q E ↔
    Ends (run sys 0 is) (c.set rd (c.reg rs - c.reg rt)) Q E :=
  ends_run_modify (f := fun c : Core σ => c.set rd (c.reg rs - c.reg rt)) rfl

theorem ends_or : Ends (run sys 0 (.or rd rs rt :: is)) c Q E ↔
    Ends (run sys 0 is) (c.set rd (c.reg rs ||| c.reg rt)) Q E :=
  ends_run_modify (f := fun c : Core σ => c.set rd (c.reg rs ||| c.reg rt)) rfl

theorem ends_srli {n : Nat} : Ends (run sys 0 (.srli rd rs n :: is)) c Q E ↔
    Ends (run sys 0 is) (c.set rd (c.reg rs >>> n)) Q E :=
  ends_run_modify (f := fun c : Core σ => c.set rd (c.reg rs >>> n)) rfl

theorem ends_bnez_zero {skip : Nat} (h : c.reg rs = 0) :
    Ends (run sys 0 (.bnez rs skip :: is)) c Q E ↔ Ends (run sys 0 is) c Q E := by
  rw [ends_run_cons, exec, ends_bind, ends_get, ends_pure, if_pos h]

theorem ends_bnez_taken {skip : Nat} (h : c.reg rs ≠ 0) :
    Ends (run sys 0 (.bnez rs skip :: is)) c Q E ↔ Ends (run sys skip is) c Q E := by
  rw [ends_run_cons, exec, ends_bind, ends_get, ends_pure, if_neg h]

theorem ends_ld {off : Nat} : Ends (run sys 0 (.ld rd off rs :: is)) c Q E ↔
    Ends (sys.load (address c off rs)) c.sys (fun v s => Ends (run sys 0 is) ((c.withSys s).set rd v) Q E)
      fun e s => E e (c.withSys s) := by
  rw [ends_run_cons, exec, ends_bind, ends_get, ends_bind, ends_onSys]
  simp only [ends_bind, ends_modify, ends_pure]

theorem ends_sd {off : Nat} : Ends (run sys 0 (.sd rt off rs :: is)) c Q E ↔
    Ends (sys.store (address c off rs) (c.reg rt)) c.sys (fun _ s => Ends (run sys 0 is) (c.withSys s) Q E)
      fun e s => E e (c.withSys s) := by
  rw [ends_run_cons, exec, ends_bind, ends_get, ends_bind, ends_onSys]
  simp only [ends_pure]

theorem ends_satp : Ends (run sys 0 (.satp rs :: is)) c Q E ↔
    Ends (sys.setSatp (c.reg rs)) c.sys (fun _ s => Ends (run sys 0 is) (c.withSys s) Q E)
      fun e s => E e (c.withSys s) := by
  rw [ends_run_cons, exec, ends_bind, ends_get, ends_bind, ends_onSys]
  simp only [ends_pure]

theorem ends_sfenceVma : Ends (run sys 0 (.sfenceVma :: is)) c Q E ↔
    Ends sys.fence c.sys (fun _ s => Ends (run sys 0 is) (c.withSys s) Q E) fun e s => E e (c.withSys s) := by
  rw [ends_run_cons, exec, ends_bind, ends_onSys]
  simp only [ends_pure]

/-- What holds of the memory and is kept by every access holds behind the code. -/
structure Sys.Keeps (sys : Sys ε σ) (P : σ → Prop) : Prop where
  load : ∀ a, Exec.Keeps P (sys.load a)
  store : ∀ a v, Exec.Keeps P (sys.store a v)
  setSatp : ∀ v, Exec.Keeps P (sys.setSatp v)
  fence : Exec.Keeps P sys.fence

theorem keeps_onSys {P : σ → Prop} {x : EStateM ε σ α} (h : Exec.Keeps P x) : Exec.Keeps (fun c => P c.sys) (onSys x) :=
  ⟨fun c hc => ends_onSys.mpr (h.run c.sys hc)⟩

theorem keeps_core {P : σ → Prop} {f : Core σ → Core σ} (hf : ∀ c, (f c).sys = c.sys) :
    Exec.Keeps (fun c => P c.sys) (do modify f; return 0 : EStateM ε (Core σ) Nat) :=
  keeps_bind (keeps_modify fun c hc => by rwa [hf]) fun _ => keeps_pure _

theorem keeps_exec {P : σ → Prop} (h : sys.Keeps P) (i : Instr) : Exec.Keeps (fun c => P c.sys) (exec sys i) := by
  cases i with
  | csrrw => exact keeps_core fun _ => rfl
  | csrr => exact keeps_core fun _ => rfl
  | csrw => exact keeps_core fun _ => rfl
  | bnez => exact keeps_bind keeps_get fun _ => keeps_pure _
  | addi => exact keeps_core fun _ => rfl
  | li => exact keeps_core fun _ => rfl
  | add => exact keeps_core fun _ => rfl
  | sub => exact keeps_core fun _ => rfl
  | or => exact keeps_core fun _ => rfl
  | srli => exact keeps_core fun _ => rfl
  | ld =>
      refine keeps_bind keeps_get fun c => keeps_bind (keeps_onSys (h.load _)) fun v => ?_
      exact keeps_bind (keeps_modify fun _ hc => hc) fun _ => keeps_pure _
  | sd => exact keeps_bind keeps_get fun c => keeps_bind (keeps_onSys (h.store ..)) fun _ => keeps_pure _
  | satp => exact keeps_bind keeps_get fun c => keeps_bind (keeps_onSys (h.setSatp _)) fun _ => keeps_pure _
  | sfenceVma => exact keeps_bind (keeps_onSys h.fence) fun _ => keeps_pure _

theorem keeps_run {P : σ → Prop} (h : sys.Keeps P) (is : List Instr) (skip : Nat) :
    Exec.Keeps (fun c => P c.sys) (run sys skip is) := by
  induction is generalizing skip with
  | nil => exact ⟨fun c hc => ends_run_nil.mpr hc⟩
  | cons i is ih =>
      cases skip with
      | zero => exact keeps_bind (keeps_exec h i) fun skip => ih skip
      | succ skip => exact ih skip

end Rules

end Rv64
