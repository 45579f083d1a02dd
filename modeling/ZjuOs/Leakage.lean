import ZjuOs.Board
import ZjuOs.Console

/-!
What the system call `write` reveals. It reads the string with the rights of the kernel, and no pointer of a user is
tested: the output depends on memory of the user alone if the string lies in pages that the user may read.
-/
namespace ZjuOs.Printk
open Exec Memory

section Views
variable (img : Image) (s : KState) (va : Nat)

/-- The byte that the kernel loads from `va`, if the load does not fault. -/
def kernelByte : Option UInt8 :=
  match (loadByte img va).run s with
  | .ok c _ => some c
  | .error _ _ => none

/-- The bits R, W and X and the byte at `va`, if the page table grants the page to user mode. -/
def granted : Option (Nat × UInt8) :=
  if img.inDirectMap va then none
  else (translate s.mem (satpRoot s.satp) va).bind fun (pte, pa) =>
    if pte.testBit PTE_U then some (pte / 2 % 8, s.mem pa) else none

end Views

/-- The two states agree on all memory that user mode may access. -/
def Alike (img : Image) (s s' : KState) : Prop := ∀ va, granted img s va = granted img s' va

/-- User mode may read the string at `p`, up to its NUL or to the end of the Sv39 addresses. -/
def StringGranted (img : Image) (s : KState) (p : Nat) : Prop :=
  ∀ n, (∀ i, i < n → ∃ x, granted img s (p + i) = some x ∧ x.2 ≠ 0) →
    (∃ x, granted img s (p + n) = some x ∧ x.1 % 2 = 1) ∨ ¬ Canonical (p + n)

section Outcome
variable (mem : Nat → Option UInt8) (site : Site) (fd : BitVec 32) (buf count : BitVec 64)

/-- The bytes that `write` sends to the console from its buffer. The lines of `Log` are none of them. -/
def bufferOutput : List UInt8 := if fd = STDOUT ∧ 0 < count then console mem site buf count else []

/-- The value that the handler puts into `a0`, if `write` returns. -/
def a0 : Option Int :=
  match (write mem site fd buf count).run ⟨[], []⟩ with
  | .ok v _ => some v
  | .error _ _ => none

/-- The calls print the same bytes of the buffer and return the same value. They return both or none, but for a
call that is refused: it reads the names of the file and of the function from the kernel image. -/
structure SameOutcome (mem mem' : Nat → Option UInt8) (site : Site) (fd : BitVec 32) (buf count : BitVec 64) : Prop where
  output : bufferOutput mem site fd buf count = bufferOutput mem' site fd buf count
  value : ∀ v v', a0 mem site fd buf count = some v → a0 mem' site fd buf count = some v' → v = v'
  returns : fd = STDOUT → 0 < count → (a0 mem site fd buf count).isSome = (a0 mem' site fd buf count).isSome

end Outcome

section Loads
variable {img : Image} {s s' : KState} {va : Nat}

theorem inDirectMap_canonical (h : img.inDirectMap va = true) : Canonical va := by
  have h20 := img.two_pow_order_le
  rw [Image.inDirectMap, decide_eq_true_eq, Image.phySize] at h
  right
  simp only [VM_START, PGSIZE] at h
  omega

theorem kernelByte_granted {x : Nat × UInt8} (h : granted img s va = some x) (hr : x.1 % 2 = 1) :
    kernelByte img s va = some x.2 := by
  rw [granted] at h
  by_cases hd : img.inDirectMap va = true
  · rw [if_pos hd] at h
    cases h
  · rw [if_neg hd] at h
    cases ht : translate s.mem (satpRoot s.satp) va with
    | none =>
        rw [ht] at h
        cases h
    | some y =>
        obtain ⟨pte, pa⟩ := y
        rw [ht, Option.bind_some] at h
        dsimp only at h
        split at h
        · cases h
          have hread : pte.testBit PTE_R = true := by
            rw [show PTE_R = 0 + 1 from rfl, Nat.testBit_succ, Nat.testBit_zero, decide_eq_true_eq]
            simp only at hr
            omega
          have hload : Ends (loadByte img va) s (fun c t => c = s.mem pa ∧ t = s) fun _ _ => False := by
            rw [loadByte, kernelPa, if_neg hd, ends_bind, ends_bind, ends_get, ht]
            dsimp only
            rw [if_pos hread, ends_pure, ends_bind, ends_get, ends_pure]
            exact ⟨rfl, rfl⟩
          rw [kernelByte, hload.run_eq]
        · cases h

theorem kernelByte_direct (h : img.inDirectMap va = true) : kernelByte img s va = some (s.mem (VA2PA va)) := by
  have hload : Ends (loadByte img va) s (fun c t => c = s.mem (VA2PA va) ∧ t = s) fun _ _ => False := by
    rw [loadByte, kernelPa, if_pos h, ends_bind, ends_pure, ends_bind, ends_get, ends_pure]
    exact ⟨rfl, rfl⟩
  rw [kernelByte, hload.run_eq]

theorem kernelByte_not_canonical (h : ¬ Canonical va) : kernelByte img s va = none := by
  have hd : ¬ img.inDirectMap va = true := fun hd => h (inDirectMap_canonical hd)
  have hnone : translate s.mem (satpRoot s.satp) va = none := by rw [translate, if_neg h]
  have hload : Ends (loadByte img va) s (fun _ _ => False) fun _ _ => True := by
    rw [loadByte, kernelPa, if_neg hd, ends_bind, ends_bind, ends_get, hnone]
    exact ends_throw.mpr trivial
  rw [kernelByte]
  cases hrun : (loadByte img va).run s with
  | ok c t => exact (hload.of_ok hrun).elim
  | error e t => rfl

end Loads

section Strings
variable {mem mem' : Nat → Option UInt8} {n p : Nat}

/-- A string depends on its own bytes only. -/
theorem textAt_congr (h : ∀ k, (∀ i, i < k → ∃ c, mem (p + i) = some c ∧ c ≠ 0) → mem (p + k) = mem' (p + k)) :
    textAt mem n p = textAt mem' n p := by
  induction n generalizing p with
  | zero => rfl
  | succ n ih =>
      have hfirst := h 0 fun i hi => absurd hi (Nat.not_lt_zero i)
      rw [Nat.add_zero] at hfirst
      rw [textAt, textAt, ← hfirst]
      cases hc : mem p with
      | none => rfl
      | some c =>
          dsimp only
          by_cases hzero : c = 0
          · rw [if_pos hzero, if_pos hzero]
          · have hrest : textAt mem n (p + 1) = textAt mem' n (p + 1) := by
              refine ih fun k hk => ?_
              rw [Nat.add_assoc, Nat.add_comm 1 k]
              refine h (k + 1) fun i hi => ?_
              cases i with
              | zero => exact ⟨c, hc, hzero⟩
              | succ i =>
                  have hi' := hk i (Nat.lt_of_succ_lt_succ hi)
                  rwa [Nat.add_assoc, Nat.add_comm 1 i] at hi'
            rw [if_neg hzero, if_neg hzero, hrest]

theorem StringGranted.textAt {img : Image} {s s' : KState} (h : StringGranted img s p) (halike : Alike img s s') :
    textAt (kernelByte img s) n p = textAt (kernelByte img s') n p := by
  have hbyte : ∀ k, (∃ x, granted img s (p + k) = some x ∧ x.1 % 2 = 1) ∨ ¬ Canonical (p + k) →
      kernelByte img s (p + k) = kernelByte img s' (p + k) ∧
        ∀ c, kernelByte img s (p + k) = some c → ∃ y, granted img s (p + k) = some y ∧ y.2 = c := by
    rintro k (⟨x, hx, hr⟩ | hno)
    · have hx' : granted img s' (p + k) = some x := (halike _).symm.trans hx
      rw [kernelByte_granted hx hr, kernelByte_granted hx' hr]
      exact ⟨rfl, fun c hc => ⟨x, hx, Option.some.inj hc⟩⟩
    · rw [kernelByte_not_canonical hno, kernelByte_not_canonical hno]
      exact ⟨rfl, fun c hc => by cases hc⟩
  have hreach : ∀ k, (∀ i, i < k → ∃ c, kernelByte img s (p + i) = some c ∧ c ≠ 0) →
      ∀ i, i < k → ∃ x, granted img s (p + i) = some x ∧ x.2 ≠ 0 := by
    intro k hk i
    induction i using Nat.strong_induction_on with
    | _ i ih =>
        intro hi
        obtain ⟨c, hc, hne⟩ := hk i hi
        obtain ⟨y, hy, hyc⟩ := (hbyte i (h i fun j hj => ih j hj (Nat.lt_trans hj hi))).2 c hc
        exact ⟨y, hy, hyc ▸ hne⟩
  exact textAt_congr fun k hk => (hbyte k (h k (hreach k hk))).1

end Strings

section Write
variable {mem mem' : Nat → Option UInt8} {site : Site} {fd : BitVec 32} {buf count : BitVec 64}

/-- A call that prints depends on its string only. -/
theorem write_congr (hcount : 0 < count)
    (h : buf ≠ 0 → textAt mem (2 ^ 64 - buf.toNat) buf.toNat = textAt mem' (2 ^ 64 - buf.toNat) buf.toNat) :
    (write mem site STDOUT buf count).run ⟨[], []⟩ = (write mem' site STDOUT buf count).run ⟨[], []⟩ := by
  by_cases hbuf : buf = 0
  · rw [hbuf, write_null hcount, write_null hcount]
  · have hnull : buf.toNat ≠ 0 := fun hz => hbuf (BitVec.eq_of_toNat_eq hz)
    have hend : buf.toNat + (2 ^ 64 - buf.toNat) = 2 ^ 64 := Nat.add_sub_cancel' (Nat.le_of_lt buf.isLt)
    have hputs : putsWoNl mem buf.toNat = putsWoNl mem' buf.toNat := by
      rw [putsWoNl, putsWoNl, if_neg hnull, if_neg hnull, putWhile_load hend, putWhile_load hend, h hbuf]
    rw [write_stdout hcount, write_stdout hcount, hputs]

/-- A call that is refused returns -1, if its message can be printed. -/
theorem a0_refused (h : ¬ (fd = STDOUT ∧ 0 < count)) {v : Int} (hv : a0 mem site fd buf count = some v) : v = -1 := by
  have hends : Ends (write mem site fd buf count) ⟨[], []⟩ (fun v _ => v = -1) fun _ _ => True := by
    have hlog : ∀ line msg, Ends (Log mem site line msg >>= fun _ => pure (-1 : Int)) ⟨[], []⟩ (fun v _ => v = -1)
        fun _ _ => True := fun line msg => by
      rw [ends_bind]
      exact ends_true.mono (fun _ _ _ => ends_pure.mpr rfl) fun _ _ _ => trivial
    rw [write]
    by_cases hfd : fd = STDOUT
    · rw [if_neg (not_not_intro hfd), if_pos (BitVec.not_lt.mp fun hpos => h ⟨hfd, hpos⟩)]
      exact hlog _ _
    · rw [if_pos hfd]
      exact hlog _ _
  rw [a0] at hv
  split at hv
  · next hrun =>
      cases hv
      exact hends.of_ok hrun
  · cases hv

end Write

section Results
variable {img : Image} {s s' : KState} {site : Site} {fd : BitVec 32} {buf count : BitVec 64}

/-- `write` tells nothing beyond what the user may read, if the string lies in what the user may read. -/
theorem write_reveals (h : Alike img s s') (hstring : fd = STDOUT → 0 < count → buf ≠ 0 → StringGranted img s buf.toNat) :
    SameOutcome (kernelByte img s) (kernelByte img s') site fd buf count := by
  by_cases hprint : fd = STDOUT ∧ 0 < count
  · obtain ⟨rfl, hcount⟩ := hprint
    have hrun : (write (kernelByte img s) site STDOUT buf count).run _ = _ :=
      write_congr hcount fun hbuf => (hstring rfl hcount hbuf).textAt h
    have hvalue : a0 (kernelByte img s) site STDOUT buf count = a0 (kernelByte img s') site STDOUT buf count := by
      rw [a0, a0, hrun]
    constructor
    case output => rw [bufferOutput, bufferOutput, console, console, hrun]
    case value =>
      intro v v' hv hv'
      rw [hvalue] at hv
      exact Option.some.inj (hv.symm.trans hv')
    case returns => exact fun _ _ => congrArg Option.isSome hvalue
  · constructor
    case output => rw [bufferOutput, bufferOutput, if_neg hprint, if_neg hprint]
    case value => exact fun v v' hv hv' => (a0_refused hprint hv).trans (a0_refused hprint hv').symm
    case returns => exact fun hfd hcount => absurd ⟨hfd, hcount⟩ hprint

/-- Under the root in frame `0x80300`, the user may read and write the page at `0x1000`, which holds `hi`. Frame `0x80304`
is a page of the kernel that begins with `c`. -/
def greetMem (c : UInt8) : Mem := fun x =>
  if x < 0x80303000 then
    setEntry (setEntry (setEntry (fun _ => 0) 0x80300 0 (2 ^ 10 * 0x80301 + 1)) 0x80301 0 (2 ^ 10 * 0x80302 + 1)) 0x80302 1
      (2 ^ 10 * 0x80303 + 0x17) x
  else if x = 0x80303000 then 'h'.toUInt8
  else if x = 0x80303001 then 'i'.toUInt8
  else if x = 0x80304000 then c
  else 0

def greetState (b : Buddy) (c : UInt8) : KState := { (boardStart b).withMem (greetMem c) with satp := 0x8000000000080300 }

section Greeting
variable {b : Buddy} {c c' : UInt8} {f i va : Nat}

theorem entry_greet (hf : f < 0x80303) (hi : i < 512) : entry (greetMem c) f i =
    if f = 0x80302 ∧ i = 1 then 2 ^ 10 * 0x80303 + 0x17 else if f = 0x80301 ∧ i = 0 then 2 ^ 10 * 0x80302 + 1
    else if f = 0x80300 ∧ i = 0 then 2 ^ 10 * 0x80301 + 1 else 0 := by
  have hlow : entry (greetMem c) f i = entry (setEntry (setEntry (setEntry (fun _ => 0) 0x80300 0 (2 ^ 10 * 0x80301 + 1)) 0x80301 0
      (2 ^ 10 * 0x80302 + 1)) 0x80302 1 (2 ^ 10 * 0x80303 + 0x17)) f i :=
    ld_congr fun x _ hx => if_pos (by omega)
  have hzero : entry (fun _ => 0) f i = 0 := ld_eq_zero fun _ _ _ => rfl
  rw [hlow]
  split
  · next h =>
      rw [h.1, h.2, entry_setEntry_self]
      rfl
  · next h2 =>
      rw [entry_setEntry_of_ne (by decide) hi (by omega)]
      split
      · next h =>
          rw [h.1, h.2, entry_setEntry_self]
          rfl
      · next h1 =>
          rw [entry_setEntry_of_ne (by decide) hi (by omega)]
          split
          · next h =>
              rw [h.1, h.2, entry_setEntry_self]
              rfl
          · rw [entry_setEntry_of_ne (by decide) hi (by omega), hzero]

/-- The page of `hi` is the only one of the user. -/
theorem translate_greet : translate (greetMem c) 0x80300 va =
    if Canonical va ∧ VPN va 2 = 0 ∧ VPN va 1 = 0 ∧ VPN va 0 = 1 then
      some (2 ^ 10 * 0x80303 + 0x17, 0x80303 * 4096 + va % 4096) else none := by
  have hroot := entry_greet (c := c) (f := 0x80300) (by decide) (VPN_lt va 2)
  have hmiddle := entry_greet (c := c) (f := 0x80301) (by decide) (VPN_lt va 1)
  have hleaf := entry_greet (c := c) (f := 0x80302) (by decide) (VPN_lt va 0)
  simp only [Nat.reduceEqDiff, false_and, if_false, true_and] at hroot hmiddle hleaf
  by_cases hcan : Canonical va
  · rw [translate, if_pos hcan, sv39Walk, hroot]
    by_cases h2 : VPN va 2 = 0
    · have hnext : ppn (2 ^ 10 * 0x80301 + 1) = 0x80301 := by decide
      rw [if_pos h2, if_neg (by decide), if_neg (by decide), hnext, sv39Walk, hmiddle]
      by_cases h1 : VPN va 1 = 0
      · have hnext : ppn (2 ^ 10 * 0x80302 + 1) = 0x80302 := by decide
        rw [if_pos h1, if_neg (by decide), if_neg (by decide), hnext, sv39Walk, hleaf]
        by_cases h0 : VPN va 0 = 1
        · rw [if_pos h0, if_neg (by decide), if_pos (by decide), if_pos ⟨hcan, h2, h1, h0⟩]
          rfl
        · rw [if_neg h0, if_pos (by decide), if_neg fun h => h0 h.2.2.2]
          rfl
      · rw [if_neg h1, if_pos (by decide), if_neg fun h => h1 h.2.2.1]
        rfl
    · rw [if_neg h2, if_pos (by decide), if_neg fun h => h2 h.2.1]
      rfl
  · rw [translate, if_neg hcan, if_neg fun h => hcan h.1]

theorem granted_greet : granted board (greetState b c) va =
    if board.inDirectMap va then none
    else if Canonical va ∧ VPN va 2 = 0 ∧ VPN va 1 = 0 ∧ VPN va 0 = 1 then
      some (3, greetMem c (0x80303 * 4096 + va % 4096)) else none := by
  have hroot : satpRoot (greetState b c).satp = 0x80300 := (by decide : satpRoot 0x8000000000080300 = 0x80300)
  have hmem : (greetState b c).mem = greetMem c := rfl
  rw [granted, hroot, hmem, translate_greet]
  split
  · rfl
  · split
    · rfl
    · rfl

theorem alike_greet : Alike board (greetState b c) (greetState b c') := by
  intro va
  have hbyte : greetMem c (0x80303 * 4096 + va % 4096) = greetMem c' (0x80303 * 4096 + va % 4096) := by
    have hlo : ¬ 0x80303 * 4096 + va % 4096 < 0x80303000 := by omega
    have hne : 0x80303 * 4096 + va % 4096 ≠ 0x80304000 := by omega
    rw [greetMem, greetMem, if_neg hlo, if_neg hlo, if_neg hne, if_neg hne]
  rw [granted_greet, granted_greet, hbyte]

theorem string_greet : StringGranted board (greetState b c) 0x1000 := by
  intro n hn
  have hbyte : ∀ k, k < 3 → granted board (greetState b c) (0x1000 + k) = some (3, [0x68, 0x69, 0].getD k 0) := fun k hk => by
    rw [granted_greet]
    obtain rfl | rfl | rfl : k = 0 ∨ k = 1 ∨ k = 2 := by omega
    · rw [if_neg (by decide), if_pos (by decide)]
      rfl
    · rw [if_neg (by decide), if_pos (by decide)]
      rfl
    · rw [if_neg (by decide), if_pos (by decide)]
      rfl
  have hlt : n < 3 := by
    by_contra hge
    obtain ⟨x, hx, hne⟩ := hn 2 (by omega)
    rw [hbyte 2 (by decide)] at hx
    cases hx
    exact hne rfl
  refine .inl ⟨_, hbyte n hlt, ?_⟩
  show 3 % 2 = 1
  rfl

theorem kernelPage_greet (hi : i < 2) : kernelByte board (greetState b c) (0xffffffe000304000 + i) = some (([c] ++ [0]).getD i 0) := by
  have hpa : VA2PA (0xffffffe000304000 + i) = 0x80304000 + i := by
    simp only [VA2PA, PA2VA_OFFSET]
    omega
  have hmem : (greetState b c).mem = greetMem c := rfl
  rw [kernelByte_direct (decide_eq_true (by simp only [Image.phySize, board, VM_START, PGSIZE]; omega)), hpa, hmem, greetMem,
    if_neg (by omega), if_neg (by omega), if_neg (by omega)]
  obtain rfl | rfl : i = 0 ∨ i = 1 := by omega
  · rfl
  · rfl

end Greeting

theorem write_reveals_hi : SameOutcome (kernelByte board (greetState ⟨0, fun _ => 0, fun _ => 0⟩ 0x41))
    (kernelByte board (greetState ⟨0, fun _ => 0, fun _ => 0⟩ 0x42)) ⟨0, 0⟩ STDOUT 0x1000 2 :=
  write_reveals alike_greet fun _ _ _ => string_greet

/-- `write(1, p, 1)` with the address `p` of a page of the kernel prints that page. -/
theorem write_reveals_kernel : ¬ ∀ img s s', Alike img s s' → ∀ site fd buf count,
    SameOutcome (kernelByte img s) (kernelByte img s') site fd buf count := by
  intro h
  have hout : ∀ b, ∀ c : UInt8, c ≠ 0 →
      bufferOutput (kernelByte board (greetState b c)) ⟨0, 0⟩ STDOUT 0xffffffe000304000 1 = [c] := fun b c hc => by
    have hbyte : ∀ i (hi : i < ([c] ++ [0]).length), kernelByte board (greetState b c) (0xffffffe000304000 + i) =
        some ([c] ++ [0])[i] := fun i hi => by
      rw [kernelPage_greet hi, List.getD_eq_getElem _ _ hi]
    have htext := textAt_takeWhile (n := 2 ^ 64 - 0xffffffe000304000) (Nat.lt_of_lt_of_le (Nat.lt_succ_self 1) (by decide)) hbyte
    rw [List.takeWhile_cons_of_pos (by simpa using hc), List.takeWhile_nil] at htext
    rw [bufferOutput, if_pos ⟨rfl, by decide⟩]
    exact console_text (by decide) (by decide) htext
  have hsame := (h board (greetState ⟨0, fun _ => 0, fun _ => 0⟩ 0x41) (greetState ⟨0, fun _ => 0, fun _ => 0⟩ 0x42) alike_greet
    ⟨0, 0⟩ STDOUT 0xffffffe000304000 1).output
  rw [hout _ 0x41 (by decide), hout _ 0x42 (by decide)] at hsame
  cases hsame

end Results

end ZjuOs.Printk
