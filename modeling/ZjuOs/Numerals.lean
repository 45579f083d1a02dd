import Mathlib.Data.Nat.Digits.Lemmas

/-!
# Numerals

Positional numerals as programs write and read them. A loop fills a buffer with the digits, the least significant
first; a reader starts from the most significant digit and does not mind leading zeros.
-/
namespace Numerals

variable {b n v acc k : Nat} {ds es : List Nat}

/-- The digits of a number in a buffer with room for `n` of them. Zero has one digit. -/
def fill (b : Nat) : Nat → Nat → List Nat
  | 0, _ => []
  | n + 1, v => v % b :: if v / b = 0 then [] else fill b n (v / b)

/-- The number that is read, with `acc` read before. -/
def read (b acc : Nat) (ds : List Nat) : Nat := ds.foldl (fun a d => a * b + d) acc

theorem fill_ne_nil : fill b (n + 1) v ≠ [] := List.cons_ne_nil _ _

theorem fill_zero : fill b (n + 1) 0 = [0] := by
  rw [fill, Nat.zero_mod, Nat.zero_div, if_pos rfl]

theorem length_fill_le : (fill b n v).length ≤ n := by
  induction n generalizing v with
  | zero => exact Nat.le_refl 0
  | succ n ih =>
      rw [fill, List.length_cons]
      split
      · exact Nat.succ_le_succ (Nat.zero_le n)
      · exact Nat.succ_le_succ ih

theorem fill_lt (hb : 0 < b) : ∀ d ∈ fill b n v, d < b := by
  induction n generalizing v with
  | zero => exact fun d hd => absurd hd List.not_mem_nil
  | succ n ih =>
      intro d hd
      rw [fill, List.mem_cons] at hd
      rcases hd with rfl | hd
      · exact Nat.mod_lt _ hb
      · split at hd
        · exact absurd hd List.not_mem_nil
        · exact ih d hd

/-- The buffer is large enough when the number is below `b ^ n`. -/
theorem fill_eq_digits (hb : 1 < b) (hv : v ≠ 0) (hlt : v < b ^ n) : fill b n v = Nat.digits b v := by
  induction n generalizing v with
  | zero =>
      rw [pow_zero] at hlt
      omega
  | succ n ih =>
      rw [fill, Nat.digits_def' hb (Nat.pos_of_ne_zero hv)]
      by_cases hdiv : v / b = 0
      · rw [if_pos hdiv, hdiv, Nat.digits_zero]
      · rw [if_neg hdiv, ih hdiv (Nat.div_lt_of_lt_mul (by rwa [pow_succ, Nat.mul_comm] at hlt))]

theorem read_append : read b acc (ds ++ es) = read b (read b acc ds) es := List.foldl_append

theorem read_zeros : read b 0 (.replicate k 0 ++ ds) = read b 0 ds := by
  induction k with
  | zero => rfl
  | succ k ih =>
      rw [List.replicate_succ, List.cons_append, ← ih, read, List.foldl_cons, Nat.zero_mul]
      rfl

theorem read_reverse : read b 0 ds.reverse = Nat.ofDigits b ds := by
  induction ds with
  | nil => rfl
  | cons d ds ih =>
      rw [List.reverse_cons, read_append, ih, Nat.ofDigits_cons, Nat.mul_comm, Nat.add_comm]
      rfl

/-- A number is read back from its digits. -/
theorem read_fill (hb : 1 < b) (hn : 0 < n) (hlt : v < b ^ n) : read b 0 (.replicate k 0 ++ (fill b n v).reverse) = v := by
  rw [read_zeros, read_reverse]
  by_cases hv : v = 0
  · obtain ⟨n, rfl⟩ := Nat.exists_eq_succ_of_ne_zero (Nat.ne_of_gt hn)
    rw [hv, fill_zero]
    rfl
  · rw [fill_eq_digits hb hv hlt, Nat.ofDigits_digits]

end Numerals
