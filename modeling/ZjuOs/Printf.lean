import ZjuOs.Format
import Mathlib.Logic.Function.Basic

/-!
`printf` of `user/printf.c`. Its `vprintfmt` is that of `lib/printk.c`; its `putc` fills `buffer`, which one system
call then prints.
-/
namespace ZjuOs.Printk
open Exec

section Program

/-- The static data of `printf`, the indices of `buffer` that were stored to, and the counts that were passed to
`write`. -/
structure Stdio where
  buffer : Int → UInt8
  tail : Int
  stores : List Int
  requests : List Int

def Stdio.start : Stdio := { buffer := fun _ => 0, tail := 0, stores := [], requests := [] }

/-- `buffer[tail++] = c;` -/
def putc (u : Stdio) (c : UInt8) : Stdio :=
  { u with buffer := Function.update u.buffer u.tail c, tail := int32 (u.tail + 1), stores := u.stores ++ [u.tail] }

/-- A call of `printf`, with the memory that its strings are read from. -/
structure Call where
  mem : Nat → Option UInt8
  format : CString
  args : List (BitVec 64)

/-- A call runs to its end, or stops in `vprintfmt` with the characters that it has stored. -/
def printf (call : Call) (u : Stdio) : Option Int × Stdio :=
  match (vprintfmt call.mem call.format).run ⟨call.args, []⟩ with
  | .error _ t => (none, (printed t.trace).foldl putc u)
  | .ok res t =>
      let u := putc ((printed t.trace).foldl putc u) 0
      (some res, { u with tail := 0, requests := u.requests ++ [u.tail] })

/-- A sequence of calls, up to the first that does not return. -/
def printfs : List Call → Stdio → Bool × Stdio
  | [], u => (true, u)
  | call :: calls, u =>
      match printf call u with
      | (none, u) => (false, u)
      | (some _, u) => printfs calls u

/-- The bytes that a call takes in the buffer: its text, and the NUL behind it. -/
def Call.bytes (call : Call) : Nat :=
  (formatText call.mem call.format call.args).1.length + (formatText call.mem call.format call.args).2.toNat

/-- The calls that are made: each call up to the first whose arguments or strings run out. -/
def made : List Call → List Call
  | [] => []
  | call :: calls => call :: if (formatText call.mem call.format call.args).2 then made calls else []

end Program

section Stores
variable {u : Stdio} {cs : List UInt8} {n : Nat}

/-- The tail after a number of characters. -/
theorem foldl_putc_tail (h : u.tail = int32 n) : (cs.foldl putc u).tail = int32 (n + cs.length) := by
  induction cs generalizing u n with
  | nil => rw [List.foldl_nil, h, List.length_nil, Int.natCast_zero, Int.add_zero]
  | cons c cs ih =>
      have hstep : (putc u c).tail = int32 ((n + 1 : Nat) : Int) := by
        rw [putc, h, int32_add, Int.natCast_add, Int.natCast_one]
      rw [List.foldl_cons, ih hstep, List.length_cons]
      congr 1
      omega

theorem foldl_putc_stores (h : u.tail = int32 n) :
    (cs.foldl putc u).stores = u.stores ++ (List.range' n cs.length).map fun i : Nat => int32 i := by
  induction cs generalizing u n with
  | nil => exact (List.append_nil _).symm
  | cons c cs ih =>
      have hstep : (putc u c).tail = int32 ((n + 1 : Nat) : Int) := by
        rw [putc, h, int32_add, Int.natCast_add, Int.natCast_one]
      rw [List.foldl_cons, ih hstep, putc, h, List.length_cons, List.range'_succ, List.map_cons, List.append_assoc, List.singleton_append]

theorem foldl_putc_requests : (cs.foldl putc u).requests = u.requests := by
  induction cs generalizing u with
  | nil => rfl
  | cons c cs ih => rw [List.foldl_cons, ih, putc]

theorem int32_range' {n : Nat} : (∀ i ∈ (List.range' 0 n).map (fun i : Nat => int32 i), 0 ≤ i ∧ i ≤ 999) ↔ n ≤ 1000 := by
  rw [List.forall_mem_map]
  refine ⟨fun h => ?_, fun h i hi => ?_⟩
  · by_contra hlt
    have hbig := h 1000 (List.mem_range'_1.mpr (by omega))
    exact absurd hbig.2 (by decide)
  · have hlt := (List.mem_range'_1.mp hi).2
    rw [int32_of_lt (by omega) (by omega)]
    omega

variable {call : Call}

/-- A call that starts with an empty buffer stores its text, and a NUL if it returns. -/
theorem printf_spec (call : Call) (h : u.tail = 0) :
    (printf call u).2.stores = u.stores ++ (List.range' 0 call.bytes).map (fun i : Nat => int32 i) ∧
      ((printf call u).1.isSome = (formatText call.mem call.format call.args).2) ∧
      ((printf call u).1.isSome → (printf call u).2.tail = 0) := by
  have htail : u.tail = int32 (0 : Nat) := h
  have hspec := vprintfmt_spec call.mem call.format call.args
  rw [printf, Call.bytes]
  cases hrun : (vprintfmt call.mem call.format).run ⟨call.args, []⟩ with
  | error e t =>
      obtain ⟨-, hno, htext, -⟩ := hspec.of_error hrun
      dsimp only
      rw [hno, foldl_putc_stores htail, htext]
      exact ⟨rfl, rfl, fun hn => absurd hn Bool.false_ne_true⟩
  | ok r t =>
      obtain ⟨hok, htext, -⟩ := hspec.of_ok hrun
      have hend := @foldl_putc_tail u (printed t.trace) 0 htail
      dsimp only
      rw [hok, putc, foldl_putc_stores htail, hend, htext, Bool.toNat_true, List.range'_concat, List.map_append, List.append_assoc]
      refine ⟨?_, rfl, fun _ => rfl⟩
      simp only [Nat.zero_add, List.map_cons, List.map_nil, Int.natCast_zero, Int.zero_add, Nat.one_mul]

end Stores

section Sequences
variable {calls : List Call} {u : Stdio}

theorem printfs_cons {call : Call} (h : u.tail = 0) : printfs (call :: calls) u =
    if (formatText call.mem call.format call.args).2 then printfs calls (printf call u).2 else (false, (printf call u).2) := by
  obtain ⟨-, hsome, -⟩ := printf_spec call h
  rw [printfs, ← hsome]
  rcases printf call u with ⟨_ | r, u'⟩ <;> rfl

/-- The indices that a sequence stores to are those of the calls that are made. -/
theorem printfs_stores (h : u.tail = 0) :
    (printfs calls u).2.stores = u.stores ++ (made calls).flatMap fun call => (List.range' 0 call.bytes).map fun i : Nat => int32 i := by
  induction calls generalizing u with
  | nil => exact (List.append_nil _).symm
  | cons call calls ih =>
      obtain ⟨hstores, hsome, htail⟩ := printf_spec call h
      rw [printfs_cons h, made]
      by_cases hok : (formatText call.mem call.format call.args).2 = true
      · rw [if_pos hok, if_pos hok, ih (htail (hsome.trans hok)), hstores, List.flatMap_cons, List.append_assoc]
      · rw [if_neg hok, if_neg hok, hstores, List.flatMap_cons, List.flatMap_nil, List.append_nil]

theorem printfs_tail (h : u.tail = 0) (hrun : (printfs calls u).1 = true) : (printfs calls u).2.tail = 0 := by
  induction calls generalizing u with
  | nil => exact h
  | cons call calls ih =>
      obtain ⟨-, hsome, htail⟩ := printf_spec call h
      rw [printfs_cons h] at hrun ⊢
      by_cases hok : (formatText call.mem call.format call.args).2 = true
      · rw [if_pos hok] at hrun ⊢
        exact ih (htail (hsome.trans hok)) hrun
      · rw [if_neg hok] at hrun
        cases hrun

/-- Every store of a sequence of calls is inside `buffer`, and `tail` is 0 before each call. -/
structure StaysInBuffer (calls : List Call) : Prop where
  stores : ∀ i ∈ (printfs calls .start).2.stores, 0 ≤ i ∧ i ≤ 999
  tail : ∀ before call after, calls = before ++ call :: after → (printfs before .start).1 = true →
    (printfs before .start).2.tail = 0

theorem stores_inside : (∀ i ∈ (printfs calls .start).2.stores, 0 ≤ i ∧ i ≤ 999) ↔ ∀ call ∈ made calls, call.bytes ≤ 1000 := by
  rw [printfs_stores rfl, Stdio.start, List.nil_append]
  simp only [← int32_range', List.mem_flatMap]
  exact ⟨fun h call hc i hi => h i ⟨call, hc, hi⟩, fun h i ⟨call, hc, hi⟩ => h call hc i hi⟩

/-- A sequence of calls stays inside the buffer exactly when the text of each call that is made, with its NUL, takes at
most 1000 bytes. -/
theorem printfs_inside (calls : List Call) : StaysInBuffer calls ↔ ∀ call ∈ made calls, call.bytes ≤ 1000 :=
  ⟨fun h => stores_inside.mp h.stores, fun h => ⟨stores_inside.mpr h, fun _ _ _ _ hrun => printfs_tail rfl hrun⟩⟩

/-- `printf("%1000d", 0)` -/
theorem printfs_overflow : ¬ StaysInBuffer [⟨fun _ => none, ⟨text "%1000d", by decide⟩, [0]⟩] := by
  intro h
  have hbytes := stores_inside.mp h.stores _ List.mem_cons_self
  exact absurd hbytes (by decide +kernel)

end Sequences

end ZjuOs.Printk
