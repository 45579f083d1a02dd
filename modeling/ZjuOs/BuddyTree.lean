import Mathlib.Algebra.Group.Nat.Defs
import Mathlib.Data.Set.Insert
import Mathlib.Order.Lattice
import Mathlib.Order.MinMax
import Mathlib.Tactic.Common

/-!
# Dyadic blocks and the value of a buddy tree node

A binary buddy system splits `[0, 2 ^ k)` into naturally aligned blocks of `2 ^ order` units. Given a
set `L` of blocks in use, `longest L b` is the size of the longest aligned run that is free inside the
node `b`. It is a function of `L` alone: nodes below a block in use hold their full size.
-/
namespace BuddyTree

/-- The block of `2 ^ order` units that starts at `pos * 2 ^ order`. -/
@[ext] structure Block where
  order : Nat
  pos : Nat
  deriving DecidableEq

namespace Block

def size (b : Block) : Nat := 2 ^ b.order

def first (b : Block) : Nat := b.pos * 2 ^ b.order

def Covers (b : Block) (p : Nat) : Prop := p / 2 ^ b.order = b.pos

def Within (b c : Block) : Prop := b.order ≤ c.order ∧ b.pos / 2 ^ (c.order - b.order) = c.pos

def up (b : Block) : Block := ⟨b.order + 1, b.pos / 2⟩

instance (b : Block) (p : Nat) : Decidable (b.Covers p) := inferInstanceAs (Decidable (_ = _))

theorem size_pos (b : Block) : 0 < b.size := Nat.two_pow_pos _

theorem covers_iff {b : Block} {p : Nat} :
    b.Covers p ↔ b.first ≤ p ∧ p < b.first + b.size := by
  have hpos : 0 < 2 ^ b.order := Nat.two_pow_pos _
  rw [Covers, first, size, Nat.div_eq_iff hpos]
  omega

theorem covers_first (b : Block) : b.Covers b.first :=
  Nat.mul_div_cancel _ (Nat.two_pow_pos _)

theorem Within.refl (b : Block) : b.Within b := by simp [Within]

theorem Within.trans {a b c : Block} (hab : a.Within b) (hbc : b.Within c) : a.Within c := by
  obtain ⟨hab, hpos⟩ := hab
  obtain ⟨hbc, hpos'⟩ := hbc
  refine ⟨hab.trans hbc, ?_⟩
  have hsplit : c.order - a.order = (b.order - a.order) + (c.order - b.order) := by omega
  rw [hsplit, Nat.pow_add, ← Nat.div_div_eq_div_mul, hpos, hpos']

theorem Within.eq_of_order {b c : Block} (h : b.Within c) (ho : c.order ≤ b.order) : b = c := by
  have hord : b.order = c.order := le_antisymm h.1 ho
  have hpos := h.2
  rw [hord, Nat.sub_self, Nat.pow_zero, Nat.div_one] at hpos
  exact Block.ext hord hpos

theorem Within.covers {b c : Block} (h : b.Within c) {p : Nat} (hp : b.Covers p) : c.Covers p := by
  have hsplit : c.order = b.order + (c.order - b.order) := by have := h.1; omega
  rw [Covers, hsplit, Nat.pow_add, ← Nat.div_div_eq_div_mul, hp, h.2]

/-- Two dyadic blocks that share a unit are nested. -/
theorem within_of_covers {b c : Block} {p : Nat} (hb : b.Covers p) (hc : c.Covers p)
    (ho : b.order ≤ c.order) : b.Within c := by
  refine ⟨ho, ?_⟩
  have hsplit : c.order = b.order + (c.order - b.order) := by omega
  rw [Covers, hsplit, Nat.pow_add, ← Nat.div_div_eq_div_mul, hb] at hc
  exact hc

theorem within_or_of_covers {b c : Block} {p : Nat} (hb : b.Covers p) (hc : c.Covers p) :
    b.Within c ∨ c.Within b :=
  (le_total b.order c.order).imp (within_of_covers hb hc) (within_of_covers hc hb)

theorem within_up (b : Block) : b.Within b.up := by
  refine ⟨Nat.le_succ _, ?_⟩
  have h1 : b.up.order - b.order = 1 := by simp [up]
  rw [h1, Nat.pow_one]
  rfl

theorem Within.up_of_ne {b c : Block} (h : b.Within c) (hne : b ≠ c) : b.up.Within c := by
  have hlt : b.order < c.order := by
    by_contra hle
    exact hne (h.eq_of_order (by omega))
  refine ⟨hlt, ?_⟩
  have hsplit : c.order - b.order = 1 + (c.order - (b.order + 1)) := by omega
  have hpos := h.2
  rw [hsplit, Nat.pow_add, Nat.pow_one, ← Nat.div_div_eq_div_mul] at hpos
  exact hpos

theorem within_succ_iff {b : Block} {h q : Nat} :
    b.Within ⟨h + 1, q⟩ ↔ b = ⟨h + 1, q⟩ ∨ b.Within ⟨h, 2 * q⟩ ∨ b.Within ⟨h, 2 * q + 1⟩ := by
  constructor
  · intro hb
    by_cases hne : b = ⟨h + 1, q⟩
    · exact .inl hne
    · right
      have hlt : b.order ≤ h := by
        by_contra hle
        exact hne (hb.eq_of_order (Nat.lt_of_not_le hle))
      have hpos := hb.2
      have hsplit : h + 1 - b.order = (h - b.order) + 1 := by omega
      simp only [hsplit, Nat.pow_succ, ← Nat.div_div_eq_div_mul] at hpos
      rcases Nat.mod_two_eq_zero_or_one (b.pos / 2 ^ (h - b.order)) with he | ho
      · exact .inl ⟨hlt, by simp only; omega⟩
      · exact .inr ⟨hlt, by simp only; omega⟩
  · rintro (rfl | hb | hb)
    · exact .refl _
    · refine hb.trans ⟨Nat.le_succ _, ?_⟩
      have h1 : h + 1 - h = 1 := by omega
      simp only [h1]; omega
    · refine hb.trans ⟨Nat.le_succ _, ?_⟩
      have h1 : h + 1 - h = 1 := by omega
      simp only [h1]; omega

end Block

open Block

/-- No unit of the block is in use. -/
def FreeRun (L : Set Block) (c : Block) : Prop := ∀ p, c.Covers p → ∀ b ∈ L, ¬ b.Covers p

/-- No two different blocks share a unit. -/
def Separate (L : Set Block) : Prop := ∀ b ∈ L, ∀ c ∈ L, ∀ p, b.Covers p → c.Covers p → b = c

/-- No block in use lies strictly above the node. -/
def Uncovered (L : Set Block) (c : Block) : Prop := ∀ b ∈ L, c.Within b → b = c

theorem freeRun_of_uncovered {L : Set Block} {c : Block} (hu : Uncovered L c)
    (hn : ∀ b ∈ L, ¬ b.Within c) : FreeRun L c := by
  intro p hp b hb hbp
  rcases within_or_of_covers hbp hp with h | h
  · exact hn b hb h
  · have := hu b hb h
    exact hn b hb (this ▸ .refl _)

theorem FreeRun.not_within {L : Set Block} {c b : Block} (hf : FreeRun L c) (hb : b ∈ L) :
    ¬ b.Within c := fun h => hf b.first (h.covers b.covers_first) b hb b.covers_first

theorem FreeRun.not_above {L : Set Block} {c b : Block} (hf : FreeRun L c) (hb : b ∈ L) :
    ¬ c.Within b := fun h => hf c.first c.covers_first b hb (h.covers c.covers_first)

theorem FreeRun.separate_insert {L : Set Block} {c : Block} (hL : Separate L) (hf : FreeRun L c) :
    Separate (insert c L) := by
  rintro a (rfl | ha) b (rfl | hb) p hap hbp
  · rfl
  · exact absurd hbp (hf p hap b hb)
  · exact absurd hap (hf p hbp a ha)
  · exact hL a ha b hb p hap hbp

theorem Separate.mono {L M : Set Block} (hL : Separate L) (h : M ⊆ L) : Separate M :=
  fun b hb c hc => hL b (h hb) c (h hc)

theorem Separate.uncovered {L : Set Block} (hL : Separate L) {c : Block} (hc : c ∈ L) :
    Uncovered L c :=
  fun b hb h => hL b hb c hc c.first (h.covers c.covers_first) c.covers_first

section Longest
open Classical

/-- Size of the longest aligned free run inside the node of order `h` at `q`. -/
noncomputable def longest (L : Set Block) : Nat → Nat → Nat
  | 0, q => if ⟨0, q⟩ ∈ L then 0 else 1
  | h + 1, q =>
      if ⟨h + 1, q⟩ ∈ L then 0
      else if longest L h (2 * q) + longest L h (2 * q + 1) = 2 ^ (h + 1) then 2 ^ (h + 1)
      else max (longest L h (2 * q)) (longest L h (2 * q + 1))

theorem longest_of_mem {L : Set Block} {h q : Nat} (hm : ⟨h, q⟩ ∈ L) : longest L h q = 0 := by
  cases h <;> simp [longest, hm]

theorem longest_le (L : Set Block) (h q : Nat) : longest L h q ≤ 2 ^ h := by
  induction h generalizing q with
  | zero => simp only [longest]; split <;> simp
  | succ h ih =>
      have hl := ih (2 * q)
      have hr := ih (2 * q + 1)
      have hpow : 2 ^ (h + 1) = 2 ^ h + 2 ^ h := by rw [Nat.pow_succ]; omega
      simp only [longest]
      split
      · omega
      · split <;> omega

/-- The full value is reached exactly when nothing inside the node is in use. -/
theorem longest_eq_full_iff {L : Set Block} {h q : Nat} :
    longest L h q = 2 ^ h ↔ ∀ b ∈ L, ¬ b.Within ⟨h, q⟩ := by
  induction h generalizing q with
  | zero =>
      simp only [longest]
      constructor
      · intro he b hb hw
        have : b = ⟨0, q⟩ := hw.eq_of_order (Nat.zero_le _)
        simp [← this, hb] at he
      · intro hn
        have : (⟨0, q⟩ : Block) ∉ L := fun hm => hn _ hm (.refl _)
        simp [this]
  | succ h ih =>
      have hl := longest_le L h (2 * q)
      have hr := longest_le L h (2 * q + 1)
      have hpos : 0 < 2 ^ h := Nat.two_pow_pos _
      have hpow : 2 ^ (h + 1) = 2 ^ h + 2 ^ h := by rw [Nat.pow_succ]; omega
      constructor
      · intro he b hb hw
        simp only [longest] at he
        split at he
        · omega
        · rename_i hm
          split at he
          · rcases within_succ_iff.mp hw with rfl | hw | hw
            · exact hm hb
            · exact ih.mp (by omega) b hb hw
            · exact ih.mp (by omega) b hb hw
          · omega
      · intro hn
        have hm : (⟨h + 1, q⟩ : Block) ∉ L := fun hm => hn _ hm (.refl _)
        have h1 := ih.mpr fun b hb hw => hn b hb (within_succ_iff.mpr (.inr (.inl hw)))
        have h2 := ih.mpr fun b hb hw => hn b hb (within_succ_iff.mpr (.inr (.inr hw)))
        simp only [longest, hm, if_false, h1, h2]
        rw [if_pos hpow.symm]

/-- The value of a node depends only on the blocks in use inside it. -/
theorem longest_congr {L M : Set Block} {h q : Nat}
    (hLM : ∀ b : Block, b.Within ⟨h, q⟩ → (b ∈ L ↔ b ∈ M)) : longest L h q = longest M h q := by
  induction h generalizing q with
  | zero => simp only [longest, hLM _ (.refl _)]
  | succ h ih =>
      have h1 := ih fun b hb => hLM b (within_succ_iff.mpr (.inr (.inl hb)))
      have h2 := ih fun b hb => hLM b (within_succ_iff.mpr (.inr (.inr hb)))
      simp only [longest, hLM _ (.refl _), h1, h2]

theorem longest_insert_self (L : Set Block) (c : Block) :
    longest (insert c L) c.order c.pos = 0 := longest_of_mem (Set.mem_insert _ _)

theorem longest_insert_of_not_within {L : Set Block} {c : Block} {h q : Nat}
    (hc : ¬ c.Within ⟨h, q⟩) : longest (insert c L) h q = longest L h q := by
  apply longest_congr
  intro b hb
  have : b ≠ c := fun h => hc (h ▸ hb)
  simp [this]

theorem longest_erase_of_not_within {L : Set Block} {c : Block} {h q : Nat}
    (hc : ¬ c.Within ⟨h, q⟩) : longest (L \ {c}) h q = longest L h q := by
  apply longest_congr
  intro b hb
  have : b ≠ c := fun h => hc (h ▸ hb)
  simp [this]

/-- Freeing a block of a separated set fills its own node. -/
theorem longest_erase_self {L : Set Block} (hL : Separate L) {c : Block} (hc : c ∈ L) :
    longest (L \ {c}) c.order c.pos = 2 ^ c.order := by
  apply longest_eq_full_iff.mpr
  intro b hb hw
  have := hL b hb.1 c hc b.first b.covers_first (hw.covers b.covers_first)
  exact hb.2 this

/-- Below a block in use every node keeps its full size. -/
theorem longest_below {L : Set Block} (hL : Separate L) {c b : Block} (hc : c ∈ L)
    (hw : b.Within c) (hne : b ≠ c) : longest L b.order b.pos = 2 ^ b.order := by
  apply longest_eq_full_iff.mpr
  intro d hd hdb
  have hdc := hL d hd c hc d.first d.covers_first (hw.covers (hdb.covers d.covers_first))
  subst hdc
  exact hne (hw.eq_of_order hdb.1)

theorem longest_succ_of_not_mem {L : Set Block} {h q : Nat} (hm : ⟨h + 1, q⟩ ∉ L) :
    longest L (h + 1) q =
      if longest L h (2 * q) + longest L h (2 * q + 1) = 2 ^ (h + 1) then 2 ^ (h + 1)
      else max (longest L h (2 * q)) (longest L h (2 * q + 1)) := by
  simp only [longest, hm, if_false]

/-- A node that holds a block in use strictly inside takes the larger child. -/
theorem longest_succ_of_within {L : Set Block} {h q : Nat} (hm : ⟨h + 1, q⟩ ∉ L) {c : Block}
    (hc : c ∈ L) (hw : c.Within ⟨h + 1, q⟩) :
    longest L (h + 1) q = max (longest L h (2 * q)) (longest L h (2 * q + 1)) := by
  have hl := longest_le L h (2 * q)
  have hr := longest_le L h (2 * q + 1)
  have hfull : longest L (h + 1) q ≠ 2 ^ (h + 1) := fun he => longest_eq_full_iff.mp he c hc hw
  rw [longest_succ_of_not_mem hm] at hfull ⊢
  split
  · rename_i hs
    exact absurd (if_pos hs) hfull
  · rfl

theorem pow_le_longest_succ_iff {L : Set Block} {h q j : Nat} (hm : ⟨h + 1, q⟩ ∉ L) (hj : j ≤ h) :
    2 ^ j ≤ longest L (h + 1) q ↔
      2 ^ j ≤ longest L h (2 * q) ∨ 2 ^ j ≤ longest L h (2 * q + 1) := by
  have hl := longest_le L h (2 * q)
  have hr := longest_le L h (2 * q + 1)
  have hle : 2 ^ j ≤ 2 ^ h := Nat.pow_le_pow_right (by omega) hj
  have hpow : 2 ^ (h + 1) = 2 ^ h + 2 ^ h := by rw [Nat.pow_succ]; omega
  rw [longest_succ_of_not_mem hm]
  split
  · constructor
    · intro _; left; omega
    · intro _; omega
  · exact le_max_iff

theorem Uncovered.child {L : Set Block} {h q r : Nat} (hu : Uncovered L ⟨h + 1, q⟩)
    (hm : ⟨h + 1, q⟩ ∉ L) (hr : r / 2 = q) : Uncovered L ⟨h, r⟩ := by
  intro b hb hw
  by_contra hne
  have hup := hw.up_of_ne (Ne.symm hne)
  have : (⟨h, r⟩ : Block).up = ⟨h + 1, q⟩ := by simp [up, hr]
  rw [this] at hup
  exact hm ((hu b hb hup) ▸ hb)

theorem full_le_longest_iff {L : Set Block} {h q : Nat} (hu : Uncovered L ⟨h, q⟩) :
    2 ^ h ≤ longest L h q ↔ ∃ r, (⟨h, r⟩ : Block).Within ⟨h, q⟩ ∧ FreeRun L ⟨h, r⟩ := by
  constructor
  · intro hle
    have hfull := le_antisymm (longest_le L h q) hle
    exact ⟨q, .refl _, freeRun_of_uncovered hu (longest_eq_full_iff.mp hfull)⟩
  · rintro ⟨r, hw, hf⟩
    have heq := hw.eq_of_order le_rfl
    rw [heq] at hf
    exact (longest_eq_full_iff.mpr fun b hb => hf.not_within hb).ge

/-- Below an uncovered node, the value says exactly how long an aligned free run there is. -/
theorem pow_le_longest_iff {L : Set Block} {h q j : Nat} (hj : j ≤ h) (hu : Uncovered L ⟨h, q⟩) :
    2 ^ j ≤ longest L h q ↔ ∃ r, (⟨j, r⟩ : Block).Within ⟨h, q⟩ ∧ FreeRun L ⟨j, r⟩ := by
  induction h generalizing q with
  | zero =>
      obtain rfl : j = 0 := by omega
      exact full_le_longest_iff hu
  | succ h ih =>
      rcases Nat.lt_or_ge h j with hlt | hge
      · obtain rfl : j = h + 1 := by omega
        exact full_le_longest_iff hu
      · by_cases hm : ⟨h + 1, q⟩ ∈ L
        · rw [longest_of_mem hm]
          constructor
          · intro hle
            have := Nat.two_pow_pos j
            omega
          · rintro ⟨r, hw, hf⟩
            exact absurd hw (hf.not_above hm)
        · have hl := ih hge (hu.child hm (r := 2 * q) (by omega))
          have hr := ih hge (hu.child hm (r := 2 * q + 1) (by omega))
          rw [pow_le_longest_succ_iff hm hge, hl, hr]
          constructor
          · rintro (⟨r, hw, hf⟩ | ⟨r, hw, hf⟩)
            · exact ⟨r, within_succ_iff.mpr (.inr (.inl hw)), hf⟩
            · exact ⟨r, within_succ_iff.mpr (.inr (.inr hw)), hf⟩
          · rintro ⟨r, hw, hf⟩
            rcases within_succ_iff.mp hw with heq | hw | hw
            · have hord : j = h + 1 := congrArg Block.order heq
              omega
            · exact .inl ⟨r, hw, hf⟩
            · exact .inr ⟨r, hw, hf⟩

end Longest

end BuddyTree
