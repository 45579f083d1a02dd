import Mathlib.Algebra.Group.Nat.Defs
import Mathlib.Logic.Function.Basic
import Mathlib.Tactic.Common

/-!
# Byte-addressed memory

Little-endian words of `n` bytes over a memory of bytes, and the same memory seen as frames of 4096
bytes that hold 512 words each.
-/
namespace Memory

abbrev Mem : Type := Nat → UInt8

/-- The little-endian value of the `n` bytes from `a`. -/
def ld : Nat → Mem → Nat → Nat
  | 0, _, _ => 0
  | n + 1, m, a => (m a).toNat + 256 * ld n m (a + 1)

/-- Store the low `n` bytes of `v` from `a`. -/
def sd : Nat → Mem → Nat → Nat → Mem
  | 0, m, _, _ => m
  | n + 1, m, a, v => sd n (Function.update m a (UInt8.ofNat v)) (a + 1) (v / 256)

def fill (m : Mem) (a n : Nat) (c : UInt8) : Mem := fun x => if a ≤ x ∧ x < a + n then c else m x

def copy (m : Mem) (dst src n : Nat) : Mem :=
  fun x => if dst ≤ x ∧ x < dst + n then m (src + (x - dst)) else m x

section Words
variable {n k a b v : Nat} {m m' : Mem}

theorem ld_lt (n : Nat) (m : Mem) (a : Nat) : ld n m a < 256 ^ n := by
  induction n generalizing a with
  | zero => simp [ld]
  | succ n ih =>
      have hbyte := (m a).toNat_lt
      have hrest := ih (a + 1)
      rw [ld, Nat.pow_succ]
      omega

/-- The same bytes at two places are the same word. -/
theorem ld_shift (h : ∀ o, o < n → m (a + o) = m' (b + o)) : ld n m a = ld n m' b := by
  induction n generalizing a b with
  | zero => rfl
  | succ n ih =>
      have hfirst := h 0 (by omega)
      rw [Nat.add_zero, Nat.add_zero] at hfirst
      have hrest : ∀ o, o < n → m (a + 1 + o) = m' (b + 1 + o) := by
        intro o ho
        rw [Nat.add_assoc, Nat.add_assoc b]
        exact h (1 + o) (by omega)
      rw [ld, ld, hfirst, ih hrest]

theorem ld_eq_zero (h : ∀ x, a ≤ x → x < a + n → m x = 0) : ld n m a = 0 := by
  induction n generalizing a with
  | zero => rfl
  | succ n ih =>
      rw [ld, h a (Nat.le_refl a) (by omega), ih fun x hlo hhi => h x (by omega) (by omega)]
      rfl

theorem ld_congr (h : ∀ x, a ≤ x → x < a + n → m x = m' x) : ld n m a = ld n m' a :=
  ld_shift fun o ho => h (a + o) (by omega) (by omega)

theorem sd_outside {x : Nat} (h : x < a ∨ a + n ≤ x) : sd n m a v x = m x := by
  induction n generalizing m a v with
  | zero => rfl
  | succ n ih => rw [sd, ih (by omega), Function.update_of_ne (by omega)]

theorem ld_sd_self (n : Nat) (m : Mem) (a v : Nat) : ld n (sd n m a v) a = v % 256 ^ n := by
  induction n generalizing m a v with
  | zero => simp [ld, Nat.mod_one]
  | succ n ih =>
      have hbyte : (UInt8.ofNat v).toNat = v % 256 := by simp
      rw [ld, sd, ih, sd_outside (by omega), Function.update_self, hbyte, Nat.pow_succ, Nat.mul_comm _ 256,
        Nat.mod_mul]

theorem ld_sd_of_disjoint (h : a + n ≤ b ∨ b + k ≤ a) : ld k (sd n m a v) b = ld k m b :=
  ld_congr fun _ _ _ => sd_outside (by omega)

/-- A word that is loaded and stored carries its bytes over. -/
theorem sd_ld {o : Nat} (ho : o < n) : sd n m b (ld n m' a) (b + o) = m' (a + o) := by
  induction n generalizing m a b o with
  | zero => omega
  | succ n ih =>
      have hbyte := (m' a).toNat_lt
      have hrest : ((m' a).toNat + 256 * ld n m' (a + 1)) / 256 = ld n m' (a + 1) := by omega
      rw [ld, sd, hrest]
      cases o with
      | zero =>
          simp only [Nat.add_zero]
          rw [sd_outside (by omega), Function.update_self]
          apply UInt8.toNat_inj.mp
          rw [UInt8.toNat_ofNat']
          omega
      | succ o =>
          have hb : b + (o + 1) = b + 1 + o := by omega
          have ha : a + (o + 1) = a + 1 + o := by omega
          rw [hb, ha]
          exact ih (by omega)

theorem fill_outside {c : UInt8} {x : Nat} (h : x < a ∨ a + n ≤ x) : fill m a n c x = m x :=
  if_neg (by omega)

theorem copy_outside {x : Nat} (h : x < a ∨ a + n ≤ x) : copy m a b n x = m x := if_neg (by omega)

theorem fill_inside {c : UInt8} {x : Nat} (h : a ≤ x ∧ x < a + n) : fill m a n c x = c := if_pos h

theorem copy_inside {x : Nat} (h : a ≤ x ∧ x < a + n) : copy m a b n x = m (b + (x - a)) := if_pos h

@[simp] theorem fill_zero {c : UInt8} : fill m a 0 c = m := by
  funext x
  exact fill_outside (by omega)

@[simp] theorem copy_zero : copy m a b 0 = m := by
  funext x
  exact copy_outside (by omega)

end Words

section Frames
variable {m m' m'' : Mem} {f g i j v : Nat}

/-- Word `i` of frame `f`. -/
def entry (m : Mem) (f i : Nat) : Nat := ld 8 m (f * 4096 + 8 * i)

def setEntry (m : Mem) (f i v : Nat) : Mem := sd 8 m (f * 4096 + 8 * i) v

/-- The two memories have the same bytes in frame `f`. -/
def SameFrame (m m' : Mem) (f : Nat) : Prop := ∀ o, o < 4096 → m (f * 4096 + o) = m' (f * 4096 + o)

theorem SameFrame.refl (m : Mem) (f : Nat) : SameFrame m m f := fun _ _ => rfl

theorem SameFrame.symm (h : SameFrame m m' f) : SameFrame m' m f := fun o ho => (h o ho).symm

theorem SameFrame.trans (h : SameFrame m m' f) (h' : SameFrame m' m'' f) : SameFrame m m'' f :=
  fun o ho => (h o ho).trans (h' o ho)

theorem SameFrame.ld (h : SameFrame m m' f) {n o : Nat} (ho : o + n ≤ 4096) :
    ld n m (f * 4096 + o) = ld n m' (f * 4096 + o) := by
  refine ld_congr fun x hlo hhi => ?_
  have hx : f * 4096 + (x - f * 4096) = x := by omega
  have hbyte := h (x - f * 4096) (by omega)
  rwa [hx] at hbyte

theorem SameFrame.entry (h : SameFrame m m' f) (hi : i < 512) : entry m f i = entry m' f i :=
  h.ld (by omega)

theorem entry_lt (m : Mem) (f i : Nat) : entry m f i < 2 ^ 64 := by
  rw [show 2 ^ 64 = 256 ^ 8 by decide]
  exact ld_lt 8 m _

theorem entry_setEntry_self (m : Mem) (f i v : Nat) : entry (setEntry m f i v) f i = v % 2 ^ 64 := by
  rw [show 2 ^ 64 = 256 ^ 8 by decide]
  exact ld_sd_self 8 m _ v

theorem entry_setEntry_of_ne (hi : i < 512) (hj : j < 512) (h : f ≠ g ∨ i ≠ j) :
    entry (setEntry m f i v) g j = entry m g j := by
  refine ld_sd_of_disjoint ?_
  rcases Nat.lt_trichotomy f g with hlt | rfl | hgt
  · omega
  · omega
  · omega

theorem sameFrame_sd {a n : Nat} (h : ∀ o, o < 4096 → f * 4096 + o < a ∨ a + n ≤ f * 4096 + o) :
    SameFrame (sd n m a v) m f := fun o ho => sd_outside (h o ho)

theorem sameFrame_setEntry (hi : i < 512) (h : f ≠ g) : SameFrame (setEntry m f i v) m g :=
  sameFrame_sd fun o ho => by omega

theorem sameFrame_fill {n o : Nat} {c : UInt8} (ho : o + n ≤ 4096) (h : f ≠ g) :
    SameFrame (fill m (f * 4096 + o) n c) m g := fun p hp => fill_outside (by omega)

/-- A copy to the start of a frame leaves the other frames. -/
theorem sameFrame_copy_start {n src : Nat} (hn : n ≤ 4096) (h : f ≠ g) :
    SameFrame (copy m (f * 4096) src n) m g := fun p hp => copy_outside (by omega)

end Frames

end Memory
