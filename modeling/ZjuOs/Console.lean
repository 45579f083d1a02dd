import ZjuOs.Printf
import Mathlib.Data.List.TakeWhile

/-!
The system call `write`, which prints with `printk("%s", buf)`, and what reaches the console of a user `printf`.
-/
namespace ZjuOs.Printk
open Exec

section Program
variable (mem : Nat → Option UInt8)

/-- The addresses of the strings `__FILE__` and `__func__`. -/
structure Site where
  file : BitVec 64
  func : BitVec 64

/-- `Log(RED msg CLEAR)` -/
def logFormat (msg : CString) : CString where
  bytes := text "\x1b[1;35m[%s,%d,%s] \x1b[31m" ++ msg.bytes ++ text "\x1b[0m\x1b[0m\n"
  noNul h := by
    rcases List.mem_append.mp h with h | h
    · rcases List.mem_append.mp h with h | h
      · exact absurd h (by decide)
      · exact msg.noNul h
    · exact absurd h (by decide)

def Log (site : Site) (line : BitVec 64) (msg : CString) : P Int :=
  printk mem (logFormat msg) [site.file, line, site.func]

def STDOUT : BitVec 32 := 1

def write (site : Site) (fd : BitVec 32) (buf count : BitVec 64) : P Int := do
  if fd ≠ STDOUT then
    let _ ← Log mem site 17 ⟨text "sys_write: fd != STDOUT\n", by decide⟩
    return -1
  else if count ≤ 0 then
    let _ ← Log mem site 21 ⟨text "sys_write: count<=0\n", by decide⟩
    return -1
  else printk mem ⟨text "%s", by decide⟩ [buf]

end Program

section Strings
variable {mem : Nat → Option UInt8} {n p : Nat} {cs : List UInt8} {u : Stdio}

/-- A string at an address is read up to its first NUL. -/
theorem textAt_takeWhile (hn : cs.length < n) (hmem : ∀ i (h : i < (cs ++ [0]).length), mem (p + i) = some (cs ++ [0])[i]) :
    textAt mem n p = (cs.takeWhile (· ≠ 0), true) := by
  induction cs generalizing n p with
  | nil =>
      obtain ⟨n, rfl⟩ := Nat.exists_eq_succ_of_ne_zero (Nat.ne_of_gt hn)
      have hzero : mem p = some 0 := hmem 0 (Nat.zero_lt_succ _)
      rw [textAt, hzero]
      rfl
  | cons c cs ih =>
      obtain ⟨n, rfl⟩ := Nat.exists_eq_succ_of_ne_zero (Nat.ne_of_gt (Nat.zero_lt_of_lt hn))
      have hc : mem p = some c := hmem 0 (Nat.zero_lt_succ _)
      rw [textAt, hc]
      dsimp only
      by_cases hnul : c = 0
      · rw [if_pos hnul, List.takeWhile_cons_of_neg (by simpa using hnul)]
      · have hrest := ih (p := p + 1) (Nat.lt_of_succ_lt_succ hn) fun i hi => by
          have hi' := hmem (i + 1) (Nat.succ_lt_succ hi)
          rwa [← Nat.add_assoc, Nat.add_right_comm] at hi'
        rw [if_neg hnul, hrest, List.takeWhile_cons_of_pos (by simpa using hnul)]

/-- The buffer holds the characters that `putc` has stored. -/
theorem foldl_putc_buffer (h : u.tail = int32 n) (hn : n + cs.length ≤ 1000) :
    (∀ i (hi : i < cs.length), (cs.foldl putc u).buffer (n + i : Nat) = cs[i]) ∧
      ∀ i : Nat, i < n → (cs.foldl putc u).buffer i = u.buffer i := by
  induction cs generalizing u n with
  | nil => exact ⟨fun i hi => absurd hi (Nat.not_lt_zero i), fun _ _ => rfl⟩
  | cons c cs ih =>
      rw [List.length_cons] at hn
      have hint : int32 (n : Int) = n := int32_of_lt (by omega) (by omega)
      have hstep : (putc u c).tail = int32 ((n + 1 : Nat) : Int) := by
        rw [putc, h, int32_add, Int.natCast_add, Int.natCast_one]
      obtain ⟨hnew, hold⟩ := ih hstep (by omega)
      have hput : (putc u c).buffer = Function.update u.buffer (n : Int) c := by rw [putc, h, hint]
      refine ⟨fun i hi => ?_, fun i hi => ?_⟩
      · rw [List.foldl_cons]
        cases i with
        | zero => rw [Nat.add_zero, hold n (Nat.lt_succ_self n), hput, Function.update_self, List.getElem_cons_zero]
        | succ i =>
            have hi' := hnew i (Nat.lt_of_succ_lt_succ hi)
            rw [Nat.add_right_comm] at hi'
            rw [List.getElem_cons_succ, ← hi', Nat.add_assoc]
      · rw [List.foldl_cons, hold i (Nat.lt_succ_of_lt hi), hput, Function.update_of_ne (by omega)]

end Strings

section Write
variable {mem : Nat → Option UInt8} {site : Site} {buf n : BitVec 64} {tr : List Action} {args : List (BitVec 64)}

/-- The iteration at the `s` of `%s`. -/
theorem scan_string {s : CString} : scan mem s 's'.toUInt8 { fmt := 1, flags := { in_format := true, prec := -1 }, written := 0 } = (do
    let v ← vaArg
    let n ← putsWoNl mem v.toNat
    return { fmt := 1, flags := { prec := -1 }, written := int32 (0 + n) }) := rfl

/-- `printk("%s", buf)` -/
theorem printk_string {s : CString} (hs : s.bytes = ['%'.toUInt8, 's'.toUInt8]) :
    (printk mem s [buf]).run ⟨args, tr⟩ = (putsWoNl mem buf.toNat >>= fun n => pure (int32 (0 + n))).run ⟨[], tr⟩ := by
  obtain ⟨bytes, noNul⟩ := s
  obtain rfl : bytes = ['%'.toUInt8, 's'.toUInt8] := hs
  have hpercent : vprintfmt mem ⟨['%'.toUInt8, 's'.toUInt8], noNul⟩ = scanLoop mem ⟨['%'.toUInt8, 's'.toUInt8], noNul⟩ 2
      { fmt := 1, flags := { in_format := true, prec := -1 }, written := 0 } := rfl
  have hend : ∀ w, scanLoop mem ⟨['%'.toUInt8, 's'.toUInt8], noNul⟩ 1 { fmt := 2, flags := { prec := -1 }, written := w } = pure w :=
    fun _ => rfl
  have hconv : scanLoop mem ⟨['%'.toUInt8, 's'.toUInt8], noNul⟩ 2 { fmt := 1, flags := { in_format := true, prec := -1 }, written := 0 } =
      scan mem ⟨['%'.toUInt8, 's'.toUInt8], noNul⟩ 's'.toUInt8 { fmt := 1, flags := { in_format := true, prec := -1 }, written := 0 } >>=
        fun x => scanLoop mem ⟨['%'.toUInt8, 's'.toUInt8], noNul⟩ 1 { x with fmt := x.fmt + 1 } := rfl
  rw [printk, hpercent, hconv, scan_string]
  simp only [bind_assoc, pure_bind, hend]
  rfl

theorem write_stdout (hn : 0 < n) :
    (write mem site STDOUT buf n).run ⟨[], []⟩ = (putsWoNl mem buf.toNat >>= fun n => pure (int32 (0 + n))).run ⟨[], []⟩ := by
  rw [write, if_neg (not_not_intro rfl), if_neg (BitVec.not_le.mpr hn), printk_string rfl]

/-- The bytes of a caller: at least one, all readable. -/
structure Buffer (mem : Nat → Option UInt8) where
  addr : BitVec 64
  bytes : List UInt8
  nonempty : 1 ≤ bytes.length
  size : bytes.length < 2 ^ 64
  content : ∀ i (h : i < bytes.length), mem (addr.toNat + i) = some bytes[i]

def Buffer.count {mem : Nat → Option UInt8} (b : Buffer mem) : BitVec 64 := BitVec.ofNat 64 b.bytes.length

/-- `write` prints the bytes of the buffer, reads none behind them, and returns their number. -/
def WritesExactly (mem : Nat → Option UInt8) (site : Site) (b : Buffer mem) : Prop :=
  ∃ t, (write mem site STDOUT b.addr b.count).run ⟨[], []⟩ = .ok b.bytes.length t ∧ printed t.trace = b.bytes ∧
    ∀ p, .load p ∈ t.trace → p < b.addr.toNat + b.bytes.length

/-- What `write` sends to the console, whether it returns or not. -/
def console (mem : Nat → Option UInt8) (site : Site) (buf count : BitVec 64) : List UInt8 :=
  match (write mem site STDOUT buf count).run ⟨[], []⟩ with
  | .ok _ t => printed t.trace
  | .error _ t => printed t.trace

/-- A user `printf` that returns, whose text fits the buffer, and the memory in its system call. -/
structure Shown where
  call : Call
  before : Stdio
  idle : before.tail = 0
  returns : (formatText call.mem call.format call.args).2 = true
  fits : (formatText call.mem call.format call.args).1.length ≤ 999
  mem : Nat → Option UInt8
  base : BitVec 64
  base_ne : base ≠ 0
  base_le : base.toNat + 1000 ≤ 2 ^ 64
  view : ∀ i : Nat, i < 1000 → mem (base.toNat + i) = some ((printf call before).2.buffer i)

def Shown.text (p : Shown) : List UInt8 := (formatText p.call.mem p.call.format p.call.args).1

/-- The count of the system call. -/
def Shown.count (p : Shown) : BitVec 64 := .ofInt 64 ((printf p.call p.before).2.requests.getLastD 0)

end Write

section Results
variable {mem : Nat → Option UInt8} {site : Site} {buf n : BitVec 64}

/-- What `write` does with a buffer that is not at address 0. -/
theorem write_text (hbuf : buf ≠ 0) (hn : 0 < n) {cs : List UInt8} {ok : Bool}
    (htext : textAt mem (2 ^ 64 - buf.toNat) buf.toNat = (cs, ok)) :
    Ends (write mem site STDOUT buf n) ⟨[], []⟩
      (fun _ t => printed t.trace = cs ∧ .load (buf.toNat + cs.length) ∈ t.trace) fun _ t => ok = false ∧ printed t.trace = cs := by
  have hnull : buf.toNat ≠ 0 := fun h => hbuf (BitVec.eq_of_toNat_eq h)
  have hend : buf.toNat + (2 ^ 64 - buf.toNat) = 2 ^ 64 := Nat.add_sub_cancel' (Nat.le_of_lt buf.isLt)
  have hputs : Ends (putsWoNl mem buf.toNat >>= fun n => pure (int32 (0 + n))) ⟨[], []⟩
      (fun _ t => printed t.trace = cs ∧ .load (buf.toNat + cs.length) ∈ t.trace) fun _ t => ok = false ∧ printed t.trace = cs := by
    rw [putsWoNl, if_neg hnull, putWhile_load hend, htext]
    simp only [bind_assoc]
    rw [ends_emit, List.nil_append]
    cases ok with
    | true =>
        simp only [if_true, bind_assoc, pure_bind]
        rw [ends_emit, ends_pure]
        refine ⟨?_, List.mem_append_right _ (List.mem_singleton.mpr rfl)⟩
        rw [printed_append, printed_string]
        exact List.append_nil _
    | false =>
        simp only [Bool.false_eq_true, if_false]
        rw [ends_bind, ends_throw]
        exact ⟨trivial, printed_string⟩
  exact ⟨by rw [write_stdout hn]; exact hputs.out⟩

theorem console_text (hbuf : buf ≠ 0) (hn : 0 < n) {cs : List UInt8} {ok : Bool}
    (htext : textAt mem (2 ^ 64 - buf.toNat) buf.toNat = (cs, ok)) : console mem site buf n = cs := by
  have hwrite := @write_text _ site _ _ hbuf hn _ _ htext
  rw [console]
  cases hrun : (write mem site STDOUT buf n).run ⟨[], []⟩ with
  | ok r t => exact (hwrite.of_ok hrun).1
  | error e t => exact (hwrite.of_error hrun).2

/-- A null pointer is printed as `(null)`. -/
theorem write_null (hn : 0 < n) :
    (write mem site STDOUT 0 n).run ⟨[], []⟩ = .ok 6 ⟨[], (text "(null)").map .putch⟩ := by
  rw [write_stdout hn]
  rfl

theorem Buffer.count_pos (b : Buffer mem) : 0 < b.count := by
  have hpos := b.nonempty
  rw [Buffer.count, BitVec.lt_def, BitVec.toNat_ofNat, Nat.mod_eq_of_lt b.size]
  exact hpos

/-- `write` does what it is asked to do for no buffer but one: the bytes `(null)` at address 0. -/
theorem writesExactly_iff (b : Buffer mem) : WritesExactly mem site b ↔ b.addr = 0 ∧ b.bytes = text "(null)" := by
  have hcount := b.count_pos
  by_cases haddr : b.addr = 0
  · rw [WritesExactly, haddr, write_null hcount]
    constructor
    · rintro ⟨t, hrun, hprinted, -⟩
      obtain ⟨-, rfl⟩ := EStateM.Result.ok.inj hrun
      exact ⟨rfl, hprinted.symm.trans printed_puts⟩
    · rintro ⟨-, hbytes⟩
      refine ⟨_, by rw [hbytes]; rfl, by rw [hbytes]; exact printed_puts, fun p hp => ?_⟩
      obtain ⟨c, -, hc⟩ := List.mem_map.mp hp
      cases hc
  · refine iff_of_false ?_ fun h => haddr h.1
    rintro ⟨t, hrun, hprinted, hloads⟩
    obtain ⟨htext, hload⟩ := (write_text haddr hcount rfl).of_ok hrun
    have hlt := hloads _ hload
    rw [← htext, hprinted] at hlt
    exact Nat.lt_irrefl _ hlt

/-- A `printf` that returns has stored its text and a NUL. -/
theorem printf_returns {call : Call} {u : Stdio} (h : (formatText call.mem call.format call.args).2 = true) :
    (printf call u).2 = { ((formatText call.mem call.format call.args).1 ++ [0]).foldl putc u with
      tail := 0
      requests := u.requests ++ [(((formatText call.mem call.format call.args).1 ++ [0]).foldl putc u).tail] } := by
  have hspec := vprintfmt_spec call.mem call.format call.args
  rw [printf]
  cases hrun : (vprintfmt call.mem call.format).run ⟨call.args, []⟩ with
  | error e t =>
      obtain ⟨-, hno, -⟩ := hspec.of_error hrun
      exact absurd (h.symm.trans hno) Bool.noConfusion
  | ok r t =>
      obtain ⟨-, htext, -⟩ := hspec.of_ok hrun
      have hput : putc ((printed t.trace).foldl putc u) 0 = ((formatText call.mem call.format call.args).1 ++ [0]).foldl putc u := by
        rw [htext, List.foldl_append, List.foldl_cons, List.foldl_nil]
      have hsame : (putc ((printed t.trace).foldl putc u) 0).requests = u.requests := by
        rw [putc, foldl_putc_requests]
      dsimp only
      rw [hsame, hput]

theorem Shown.content (p : Shown) : ∀ i (h : i < (p.text ++ [0]).length), p.mem (p.base.toNat + i) = some (p.text ++ [0])[i] := by
  have hfits : p.text.length ≤ 999 := p.fits
  have htail : p.before.tail = int32 (0 : Nat) := p.idle
  intro i hi
  have hlen : (p.text ++ [0]).length = p.text.length + 1 := by rw [List.length_append, List.length_singleton]
  have hbuf := (foldl_putc_buffer htail (by omega : 0 + (p.text ++ [0]).length ≤ 1000)).1 i hi
  rw [Nat.zero_add] at hbuf
  rw [p.view i (by omega), printf_returns p.returns, ← hbuf]
  rfl

theorem Shown.count_eq (p : Shown) : p.count = .ofNat 64 (p.text.length + 1) := by
  have hfits : p.text.length ≤ 999 := p.fits
  have htail : p.before.tail = int32 (0 : Nat) := p.idle
  have hlen : (p.text ++ [0]).length = p.text.length + 1 := by rw [List.length_append, List.length_singleton]
  have hend := @foldl_putc_tail _ (p.text ++ [0]) 0 htail
  rw [hlen, Int.natCast_zero, Int.zero_add, int32_of_lt (by omega) (by omega)] at hend
  rw [Shown.count, printf_returns p.returns]
  dsimp only
  rw [List.getLastD_concat]
  refine (congrArg (BitVec.ofInt 64) hend).trans ?_
  rw [BitVec.ofInt_natCast]

/-- The text of a `printf` reaches the console up to its first NUL. -/
theorem Shown.console_eq (p : Shown) : console p.mem site p.base p.count = p.text.takeWhile (· ≠ 0) := by
  have hfits : p.text.length ≤ 999 := p.fits
  have hbase := p.base_le
  have htext := textAt_takeWhile (n := 2 ^ 64 - p.base.toNat) (by omega) p.content
  have hcount : 0 < p.count := by
    rw [p.count_eq, BitVec.lt_def, BitVec.toNat_ofNat, Nat.mod_eq_of_lt (by omega)]
    exact Nat.succ_pos _
  exact console_text p.base_ne hcount htext

/-- The law of `write` holds for no buffer but one, the bytes `(null)` at address 0, and the text of a user `printf`
reaches the console exactly when it has no NUL in it. -/
theorem write_exact (site : Site) :
    (∀ mem, ∀ b : Buffer mem, WritesExactly mem site b ↔ b.addr = 0 ∧ b.bytes = text "(null)") ∧
      ∀ p : Shown, console p.mem site p.base p.count = p.text ↔ 0 ∉ p.text := by
  refine ⟨fun _ b => writesExactly_iff b, fun p => ?_⟩
  rw [p.console_eq, List.takeWhile_eq_self_iff]
  simp only [decide_eq_true_eq]
  exact ⟨fun h hmem => h 0 hmem rfl, fun h c hc hzero => h (hzero ▸ hc)⟩

/-- `printf("%d %c", 42, 'x')` -/
def numberCall : Call := ⟨fun _ => none, ⟨text "%d %c", by decide⟩, [42, 120]⟩

/-- The first call of a program, with the buffer at `0x2000`. -/
def shownNumber : Shown where
  call := numberCall
  before := .start
  idle := rfl
  returns := by decide +kernel
  fits := by decide +kernel
  mem := fun p => if 0x2000 ≤ p then some ((printf numberCall .start).2.buffer (p - 0x2000 : Nat)) else none
  base := 0x2000
  base_ne := by decide
  base_le := by decide
  view := fun i _ => by
    have hbase : (0x2000 : BitVec 64).toNat = 0x2000 := rfl
    rw [hbase, if_pos (Nat.le_add_right ..), Nat.add_sub_cancel_left]

example : console shownNumber.mem ⟨0, 0⟩ shownNumber.base shownNumber.count = text "42 x" := by decide +kernel

/-- `hello` at `0x1000`. -/
def helloMem (p : Nat) : Option UInt8 := if p < 0x1000 then none else (text "hello" ++ [0])[p - 0x1000]?

/-- The first three bytes of `hello`. -/
def hel : Buffer helloMem where
  addr := 0x1000
  bytes := text "hel"
  nonempty := by decide
  size := by decide
  content := by decide

/-- `write(1, "hello", 3)` -/
theorem write_hello : ¬ WritesExactly helloMem ⟨0, 0⟩ hel ∧ console helloMem ⟨0, 0⟩ hel.addr hel.count = text "hello" := by
  have hconsole : console helloMem ⟨0, 0⟩ hel.addr hel.count = text "hello" := by decide +kernel
  exact ⟨fun h => absurd ((writesExactly_iff hel).mp h).1 (by decide), hconsole⟩

end Results

end ZjuOs.Printk
