import ZjuOs.Reading

/-!
The integer conversions as ISO C specifies them, and the conversions that `vprintfmt` prints that way.
-/
namespace ZjuOs.Printk
open Exec Numerals

section Standard

/-- The digits of a number, the most significant first; zero has one digit. -/
def isoDigits (b n : Nat) : List Nat := if n = 0 then [0] else (Nat.digits b n).reverse

/-- A field: at least `prec` digits, a sign or a prefix in front of them, padded to the width on the left with blanks, or
with zeros behind the sign or the prefix if there is the flag `0` and no precision. -/
def isoField (zero : Bool) (width : Nat) (prec : Option Nat) (lead digits : List UInt8) : List UInt8 :=
  let number := .replicate (prec.getD 1 - digits.length) '0'.toUInt8 ++ digits
  let missing := width - (lead.length + number.length)
  if zero ∧ prec = none then lead ++ .replicate missing '0'.toUInt8 ++ number
  else .replicate missing ' '.toUInt8 ++ lead ++ number

def Count.nat : Count → Nat
  | digits ds => read 10 0 (ds.map Fin.val)
  | star v => (intArg v).toNat

/-- A conversion of the supported subset. -/
structure IsoConversion extends Conversion where
  width_lt : ∀ p ∈ width, p.nat < 2 ^ 31
  width_star : ∀ v, width = some (.star v) → 0 ≤ intArg v
  prec_star : ∀ v, prec = some (.star v) → 0 ≤ intArg v
  sharp_hex : .sharp ∈ flags → conv = .x ∨ conv = .X

namespace Conversion

variable (c : Conversion) (v : BitVec 64)

def widthNat : Nat := c.width.elim 0 Count.nat

def precNat : Option Nat := c.prec.map Count.nat

/-- The value of the argument in its own type. -/
def value : Int :=
  match c.conv with
  | .d | .i => if c.long then v.toInt else (v.setWidth 32).toInt
  | .u | .x | .X => if c.long then v.toNat else (v.setWidth 32).toNat

def isoLead : List UInt8 :=
  match c.conv with
  | .d | .i =>
      if c.value v < 0 then ['-'.toUInt8] else if .plus ∈ c.flags then ['+'.toUInt8]
      else if .space ∈ c.flags then [' '.toUInt8] else []
  | .u => []
  | .x => if .sharp ∈ c.flags ∧ c.value v ≠ 0 then ['0'.toUInt8, 'x'.toUInt8] else []
  | .X => if .sharp ∈ c.flags ∧ c.value v ≠ 0 then ['0'.toUInt8, 'X'.toUInt8] else []

def isoNumber : List UInt8 :=
  match c.conv with
  | .d | .i | .u => (isoDigits 10 (c.value v).natAbs).map decimal
  | .x | .X => (isoDigits 16 (c.value v).natAbs).map (hexadecimal c.conv.char)

/-- The characters that `fprintf` prints. -/
def isoText : List UInt8 :=
  isoField (.zero ∈ c.flags) c.widthNat c.precNat (c.isoLead v)
    (if c.precNat = some 0 ∧ c.value v = 0 then [] else c.isoNumber v)

/-- The arguments that `vprintfmt` prints as it should: `u` without `l` is below `2 ^ 31`; the number 0 with the
precision 0 stands alone; behind a sign the precision asks for no further digits; the least `long` is printed as it is;
and the padding of a prefixed number stays inside `int`. -/
def Conforms : Prop :=
  (∀ p ∈ c.precNat, p < 2 ^ 31) ∧
    match c.conv with
    | .d | .i =>
        if c.long ∧ v = 0x8000000000000000 then c.widthNat ≤ 20 ∧ ∀ p ∈ c.precNat, p ≤ 19
        else ¬ (c.precNat = some 0 ∧ c.value v = 0 ∧ (0 < c.widthNat ∨ c.isoLead v ≠ [])) ∧
          ∀ p ∈ c.precNat, c.isoLead v ≠ [] → p ≤ (c.isoNumber v).length
    | .u => (c.long = true ∨ c.value v < 2 ^ 31) ∧ ¬ (c.precNat = some 0 ∧ c.value v = 0 ∧ 0 < c.widthNat)
    | .x | .X => ¬ (c.precNat = some 0 ∧ c.value v = 0 ∧ 0 < c.widthNat) ∧
        ¬ (c.isoLead v ≠ [] ∧ c.precNat = some (2 ^ 31 - 1) ∧ c.widthNat = 0)

end Conversion

end Standard

section Fields
variable {zero : Bool} {W L D p : Nat} {q : Int} {prec : Option Nat} {lead ds es : List UInt8} {a b a' b' : Int}

theorem isoDigits_eq {B n k : Nat} (hB : 1 < B) (hk : 0 < k) (hn : n < B ^ k) : (fill B k n).reverse = isoDigits B n := by
  obtain ⟨k, rfl⟩ := Nat.exists_eq_succ_of_ne_zero (Nat.ne_of_gt hk)
  by_cases hzero : n = 0
  · rw [isoDigits, if_pos hzero, hzero, fill_zero, List.reverse_singleton]
  · rw [isoDigits, if_neg hzero, fill_eq_digits hB hzero hn]

/-- Equal fields with the same sign have as many blanks, and as many zeros and digits. -/
theorem field_counts (hds : ' '.toUInt8 ∉ ds) (hes : ' '.toUInt8 ∉ es) (h : field a b lead ds = field a' b' lead es) :
    a.toNat = a'.toNat ∧ b.toNat + ds.length = b'.toNat + es.length := by
  have hcount := congrArg (List.count ' '.toUInt8) h
  have hlen := congrArg List.length h
  have hne : ('0'.toUInt8 == ' '.toUInt8) = false := by decide
  simp only [field, List.count_append, List.count_replicate, List.count_eq_zero_of_not_mem hds, List.count_eq_zero_of_not_mem hes, hne,
    beq_self_eq_true, if_true, Bool.false_eq_true, if_false] at hcount
  simp only [field, List.length_append, List.length_replicate] at hlen
  omega

theorem field_inj (hds : ' '.toUInt8 ∉ ds) : field a b lead ds = field a' b' lead ds ↔ a.toNat = a'.toNat ∧ b.toNat = b'.toNat := by
  refine ⟨fun h => ?_, fun h => by rw [field, field, h.1, h.2]⟩
  have hcounts := field_counts hds hds h
  exact ⟨hcounts.1, Nat.add_right_cancel hcounts.2⟩

/-- The blanks of a field. -/
def isoBlanks (zero : Bool) (W : Nat) (prec : Option Nat) (L D : Nat) : Nat :=
  if zero ∧ prec = none then 0 else W - (L + max D (prec.getD 0))

/-- The zeros of a field. -/
def isoZeros (zero : Bool) (W : Nat) (prec : Option Nat) (L D : Nat) : Nat :=
  if zero ∧ prec = none then W - (L + D) else prec.getD 0 - D

theorem isoField_eq (h : prec = none → ds ≠ []) :
    isoField zero W prec lead ds = field (isoBlanks zero W prec lead.length ds.length) (isoZeros zero W prec lead.length ds.length) lead ds := by
  have hlen : prec = none → 1 ≤ ds.length := fun hp => List.length_pos_iff.mpr (h hp)
  have hpad : prec.getD 1 - ds.length = prec.getD 0 - ds.length := by
    cases prec with
    | none => rw [Option.getD_none, Option.getD_none, Nat.zero_sub, Nat.sub_eq_zero_of_le (hlen rfl)]
    | some p => rfl
  have hmax : prec.getD 0 - ds.length + ds.length = max ds.length (prec.getD 0) := by omega
  rw [isoField, isoBlanks, isoZeros, field]
  rw [hpad, List.length_append, List.length_replicate, hmax]
  by_cases hz : zero = true ∧ prec = none
  · rw [if_pos hz, if_pos hz, if_pos hz, hz.2, Option.getD_none, Nat.zero_sub, Nat.max_zero, Int.toNat_natCast, Int.toNat_natCast]
    simp only [List.replicate_zero, List.nil_append]
  · rw [if_neg hz, if_neg hz, if_neg hz, Int.toNat_natCast, Int.toNat_natCast]
    simp only [List.append_assoc]

/-- What `vprintfmt` has for a precision: it goes through a `long`, and then an `int`. -/
def PrecOf (prec : Option Nat) (q : Int) : Prop :=
  match prec with
  | none => q = -1
  | some p => if p < 2 ^ 31 then q = p else -2 ^ 31 ≤ q ∧ q < 2 ^ 31

theorem dec_counts (zero : Bool) (hW : W < 2 ^ 31) (hL : L ≤ 1) (h1 : 1 ≤ D) (hD : D ≤ 20) (hq : PrecOf prec q) {r : Int}
    (hr : r = if q = -1 ∧ zero then (W : Int) else q) :
    ((int32 (int32 (W - max ↑D r) - L)).toNat = isoBlanks zero W prec L D ∧ (int32 (r - L) - D).toNat = isoZeros zero W prec L D) ↔
      ∀ p ∈ prec, p < 2 ^ 31 ∧ (L = 0 ∨ p ≤ D) := by
  rw [isoBlanks, isoZeros]
  cases prec with
  | none =>
      obtain rfl : q = -1 := hq
      simp only [Option.getD_none, Option.not_mem_none, false_imp_iff, implies_true, iff_true, int32]
      cases zero with
      | false =>
          obtain rfl : r = -1 := hr
          simp only [Bool.false_eq_true, false_and, if_false]
          omega
      | true =>
          obtain rfl : r = W := hr
          simp only [and_self, if_true]
          omega
  | some p =>
      have hprec : ¬ (zero = true ∧ some p = none) := fun h => by cases h.2
      rw [if_neg hprec, if_neg hprec, Option.getD_some]
      simp only [Option.mem_def, Option.some.injEq, forall_eq']
      rw [PrecOf] at hq
      by_cases hp : p < 2 ^ 31
      · rw [if_pos hp] at hq
        rw [if_neg (by omega)] at hr
        simp only [int32]
        omega
      · rw [if_neg hp] at hq
        have hrange : -2 ^ 31 ≤ r ∧ r < 2 ^ 31 := by
          rw [hr]
          split <;> omega
        simp only [int32]
        omega

theorem hex_counts (zero : Bool) (hW : W < 2 ^ 31) (hL : L = 0 ∨ L = 2) (h1 : 1 ≤ D) (hD : D ≤ 16) (hq : PrecOf prec q) {r : Int}
    (hr : r = if q = -1 ∧ zero then int32 (W - L) else q) :
    ((int32 (int32 (W - L) - max ↑D r)).toNat = isoBlanks zero W prec L D ∧ (r - D).toNat = isoZeros zero W prec L D) ↔
      ∀ p ∈ prec, p < 2 ^ 31 ∧ ¬ (L ≠ 0 ∧ p = 2 ^ 31 - 1 ∧ W = 0) := by
  rw [isoBlanks, isoZeros]
  cases prec with
  | none =>
      obtain rfl : q = -1 := hq
      simp only [Option.getD_none, Option.not_mem_none, false_imp_iff, implies_true, iff_true, int32] at hr ⊢
      cases zero with
      | false =>
          obtain rfl : r = -1 := hr
          simp only [Bool.false_eq_true, false_and, if_false]
          omega
      | true =>
          simp only [and_self, if_true] at hr ⊢
          omega
  | some p =>
      have hprec : ¬ (zero = true ∧ some p = none) := fun h => by cases h.2
      rw [if_neg hprec, if_neg hprec, Option.getD_some]
      simp only [Option.mem_def, Option.some.injEq, forall_eq']
      rw [PrecOf] at hq
      by_cases hp : p < 2 ^ 31
      · rw [if_pos hp] at hq
        rw [if_neg (by omega)] at hr
        simp only [int32]
        omega
      · rw [if_neg hp] at hq
        have hrange : -2 ^ 31 ≤ r ∧ r < 2 ^ 31 := by
          rw [hr, int32]
          split <;> omega
        simp only [int32]
        omega

theorem isoField_zero : isoField zero W (some 0) lead [] = [] ↔ W = 0 ∧ lead = [] := by
  have hprec : ¬ (zero = true ∧ some 0 = none) := fun h => by cases h.2
  rw [isoField, if_neg hprec, Option.getD_some, List.length_nil, List.replicate_zero, List.nil_append, List.length_nil, Nat.add_zero,
    List.append_nil, List.append_eq_nil_iff, List.replicate_eq_nil_iff]
  constructor
  · rintro ⟨hW, rfl⟩
    exact ⟨by simpa using hW, rfl⟩
  · rintro ⟨rfl, rfl⟩
    exact ⟨rfl, rfl⟩

theorem isoField_ne_nil (hp : 0 < p) : isoField zero W (some p) lead ds ≠ [] := by
  have hprec : ¬ (zero = true ∧ some p = none) := fun h => by cases h.2
  rw [isoField, if_neg hprec, Option.getD_some]
  intro h
  have hlen := congrArg List.length h
  simp only [List.length_append, List.length_replicate, List.length_nil] at hlen
  omega

/-- The precision 0 is read as 0; a precision that is read as 0 and is not 0 is too large for an `int`. -/
theorem PrecOf.zero_iff (hq : PrecOf prec q) (hlt : ∀ p ∈ prec, p < 2 ^ 31) : q = 0 ↔ prec = some 0 := by
  cases prec with
  | none =>
      obtain rfl : q = -1 := hq
      exact iff_of_false (by decide) fun h => by cases h
  | some p =>
      rw [PrecOf, if_pos (hlt p rfl)] at hq
      rw [hq, Option.some.injEq, Int.natCast_eq_zero]

end Fields

section Texts
variable {flags : FmtFlags} {num : BitVec 64} {isSigned : Bool} {W : Nat} {prec : Option Nat} {c : UInt8}

theorem isoDigits_length {B n k : Nat} (hB : 1 < B) (hk : 0 < k) (hn : n < B ^ k) : 1 ≤ (isoDigits B n).length ∧ (isoDigits B n).length ≤ k := by
  rw [← isoDigits_eq hB hk hn, List.length_reverse]
  refine ⟨?_, length_fill_le⟩
  obtain ⟨k, rfl⟩ := Nat.exists_eq_succ_of_ne_zero (Nat.ne_of_gt hk)
  exact List.length_pos_iff.mpr fill_ne_nil

theorem isoDigits_lt {B n k : Nat} (hB : 1 < B) (hk : 0 < k) (hn : n < B ^ k) : ∀ d ∈ isoDigits B n, d < B := by
  rw [← isoDigits_eq hB hk hn]
  exact fun d hd => fill_lt (Nat.zero_lt_of_lt hB) d (List.mem_reverse.mp hd)

theorem blank_notMem_decimal {n : Nat} (hn : n < 2 ^ 64) : ' '.toUInt8 ∉ (isoDigits 10 n).map decimal := by
  rw [List.mem_map]
  rintro ⟨d, hd, hblank⟩
  have hd := isoDigits_lt (by decide) (by decide) (Nat.lt_trans hn (by decide : 2 ^ 64 < 10 ^ 20)) d hd
  have hspace := (decimal_spec d hd).2.2.2.1
  rw [hblank] at hspace
  exact absurd hspace (by decide)

theorem blank_notMem_hexadecimal {n : Nat} (hn : n < 2 ^ 64) : ' '.toUInt8 ∉ (isoDigits 16 n).map (hexadecimal c) := by
  rw [List.mem_map]
  rintro ⟨d, hd, hblank⟩
  have hd := @isoDigits_lt 16 n 16 (by decide) (by decide) hn d hd
  have hspace := (hexadecimal_spec c d hd).2.1
  rw [hblank] at hspace
  exact absurd hspace (by decide)

/-- When `print_dec_int` prints the field of ISO C for the number that it is given. -/
theorem decText_iff (hwidth : flags.width = W) (hW : W < 2 ^ 31) (hq : PrecOf prec flags.prec)
    (hmin : ¬ (isSigned = true ∧ num = 0x8000000000000000)) {lead ds : List UInt8}
    (hlead : lead = if isSigned then signText (num.slt 0) flags else [])
    (hds : ds = (isoDigits 10 (if isSigned && num.slt 0 then -num else num).toNat).map decimal) :
    decText num isSigned flags = isoField flags.zeroflag W prec lead (if prec = some 0 ∧ num = 0 then [] else ds) ↔
      (∀ p ∈ prec, p < 2 ^ 31) ∧ ¬ (prec = some 0 ∧ num = 0 ∧ (0 < W ∨ lead ≠ [])) ∧ ∀ p ∈ prec, lead ≠ [] → p ≤ ds.length := by
  rw [decText, if_neg hmin]
  by_cases hz : flags.prec = 0 ∧ num = 0
  · rw [if_pos hz]
    by_cases hlt : ∀ p ∈ prec, p < 2 ^ 31
    · have hprec := (hq.zero_iff hlt).mp hz.1
      rw [if_pos ⟨hprec, hz.2⟩, hprec, eq_comm, isoField_zero]
      constructor
      · rintro ⟨rfl, rfl⟩
        refine ⟨by simp, ?_, fun _ _ hne => absurd rfl hne⟩
        rintro ⟨-, -, hpos | hne⟩
        · exact Nat.lt_irrefl 0 hpos
        · exact hne rfl
      · rintro ⟨-, hno, -⟩
        by_contra hcon
        refine hno ⟨rfl, hz.2, ?_⟩
        by_cases hl : lead = []
        · exact .inl (Nat.pos_of_ne_zero fun hw => hcon ⟨hw, hl⟩)
        · exact .inr hl
    · refine iff_of_false (fun h => ?_) fun h => hlt h.1
      push Not at hlt
      obtain ⟨p, hp, hle⟩ := hlt
      rw [Option.mem_def.mp hp] at h
      exact isoField_ne_nil (by omega) h.symm
  · rw [if_neg hz]
    have hnz : ¬ (prec = some 0 ∧ num = 0) := by
      rintro ⟨rfl, hnum⟩
      exact hz ⟨hq, hnum⟩
    obtain ⟨n, hn⟩ : ∃ n, n = (if isSigned && num.slt 0 then -num else num).toNat := ⟨_, rfl⟩
    have hlt : n < 2 ^ 64 := by rw [hn]; exact BitVec.isLt _
    have hlt' : n < 10 ^ 20 := Nat.lt_trans hlt (by decide)
    have hdigits : (decDigits 20 n).reverse = ds := by
      rw [decDigits_eq, ← List.map_reverse, isoDigits_eq (by decide) (by decide) hlt', hds, hn]
    have hlen := isoDigits_length (by decide) (by decide) hlt'
    have hdslen : ds.length = (isoDigits 10 n).length := by rw [hds, hn, List.length_map]
    have hL : lead.length ≤ 1 := by
      rw [hlead, signText]
      cases isSigned <;> cases num.slt 0 <;> cases flags.sign <;> cases flags.spaceflag <;> decide
    have hblank : ' '.toUInt8 ∉ ds := by
      rw [hds, ← hn]
      exact blank_notMem_decimal hlt
    have hsign : (if isSigned then signText (isSigned && num.slt 0) flags else []) = lead := by
      rw [hlead]
      cases isSigned <;> rfl
    have hne : ds ≠ [] := List.length_pos_iff.mp (by omega)
    have hcounts := dec_counts flags.zeroflag hW hL (hdslen ▸ hlen.1) (hdslen ▸ hlen.2) hq rfl
    rw [if_neg hnz, isoField_eq fun _ => hne]
    dsimp only
    rw [hsign, ← hn, hdigits, field_inj hblank, Int.toNat_natCast, Int.toNat_natCast, hwidth, hcounts]
    have hempty : lead.length = 0 ↔ lead = [] := List.length_eq_zero_iff
    constructor
    · intro h
      refine ⟨fun p hp => (h p hp).1, fun hno => hnz ⟨hno.1, hno.2.1⟩, fun p hp hl => ?_⟩
      exact (h p hp).2.resolve_left fun hzero => hl (hempty.mp hzero)
    · rintro ⟨hlt, -, hle⟩ p hp
      refine ⟨hlt p hp, ?_⟩
      by_cases hl : lead = []
      · exact .inl (hempty.mpr hl)
      · exact .inr (hle p hp hl)

/-- When the conversions `x` and `X` print the field of ISO C. -/
theorem hexText_iff (hwidth : flags.width = W) (hW : W < 2 ^ 31) (hq : PrecOf prec flags.prec) (hc : c ≠ 'p'.toUInt8)
    {lead ds : List UInt8}
    (hlead : lead = if flags.sharpflag && num != 0 then ['0'.toUInt8, if c = 'X'.toUInt8 then 'X'.toUInt8 else 'x'.toUInt8] else [])
    (hds : ds = (isoDigits 16 num.toNat).map (hexadecimal c)) :
    hexText num c flags = isoField flags.zeroflag W prec lead (if prec = some 0 ∧ num = 0 then [] else ds) ↔
      (∀ p ∈ prec, p < 2 ^ 31) ∧ ¬ (prec = some 0 ∧ num = 0 ∧ 0 < W) ∧ ¬ (lead ≠ [] ∧ prec = some (2 ^ 31 - 1) ∧ W = 0) := by
  rw [hexText]
  by_cases hz : flags.prec = 0 ∧ num = 0
  · have hnil : lead = [] := by
      rw [hlead, hz.2]
      simp only [bne_self_eq_false, Bool.and_false, Bool.false_eq_true, if_false]
    rw [if_pos ⟨hz.1, hz.2, hc⟩]
    by_cases hlt : ∀ p ∈ prec, p < 2 ^ 31
    · have hprec := (hq.zero_iff hlt).mp hz.1
      rw [if_pos ⟨hprec, hz.2⟩, hprec, eq_comm, isoField_zero]
      constructor
      · rintro ⟨rfl, -⟩
        exact ⟨by simp, fun h => Nat.lt_irrefl 0 h.2.2, fun h => h.1 hnil⟩
      · rintro ⟨-, hno, -⟩
        exact ⟨Nat.eq_zero_of_not_pos fun hpos => hno ⟨rfl, hz.2, hpos⟩, hnil⟩
    · refine iff_of_false (fun h => ?_) fun h => hlt h.1
      push Not at hlt
      obtain ⟨p, hp, hle⟩ := hlt
      rw [Option.mem_def.mp hp] at h
      exact isoField_ne_nil (by omega) h.symm
  · have hnz : ¬ (prec = some 0 ∧ num = 0) := by
      rintro ⟨rfl, hnum⟩
      exact hz ⟨hq, hnum⟩
    have hlt : num.toNat < 16 ^ 16 := num.isLt
    have hdigits : (hexDigits (if c = 'X'.toUInt8 then upperxdigits else lowerxdigits) 16 num.toNat).reverse = ds := by
      rw [hexDigits_eq, ← List.map_reverse, isoDigits_eq (by decide) (by decide) hlt, hds]
    have hlen := isoDigits_length (by decide) (by decide) hlt
    have hdslen : ds.length = (isoDigits 16 num.toNat).length := by rw [hds, List.length_map]
    have hL : lead.length = 0 ∨ lead.length = 2 := by
      rw [hlead]
      split
      · exact .inr rfl
      · exact .inl rfl
    have hblank : ' '.toUInt8 ∉ ds := by
      rw [hds]
      exact blank_notMem_hexadecimal num.isLt
    have hlead' : (if c = 'p'.toUInt8 || (flags.sharpflag && num != 0) then
        ['0'.toUInt8, if c = 'X'.toUInt8 then 'X'.toUInt8 else 'x'.toUInt8] else []) = lead := by
      rw [hlead, decide_eq_false hc, Bool.false_or]
    have hne : ds ≠ [] := List.length_pos_iff.mp (by omega)
    have hcounts := hex_counts flags.zeroflag hW hL (hdslen ▸ hlen.1) (hdslen ▸ hlen.2) hq rfl
    rw [if_neg fun h => hz ⟨h.1, h.2.1⟩, if_neg hnz, isoField_eq fun _ => hne]
    dsimp only
    rw [hlead', hdigits, field_inj hblank, Int.toNat_natCast, Int.toNat_natCast, hwidth, hcounts]
    have hempty : lead.length = 0 ↔ lead = [] := List.length_eq_zero_iff
    constructor
    · intro h
      refine ⟨fun p hp => (h p hp).1, fun hno => hnz ⟨hno.1, hno.2.1⟩, fun hno => ?_⟩
      exact (h _ hno.2.1).2 ⟨fun hzero => hno.1 (hempty.mp hzero), rfl, hno.2.2⟩
    · rintro ⟨hlt, -, hno⟩ p hp
      refine ⟨hlt p hp, fun h => hno ⟨fun hl => h.1 (hempty.mpr hl), ?_, h.2.2⟩⟩
      rw [← h.2.1]
      exact hp

end Texts

section Arguments
variable {v num : BitVec 64}

theorem intArg_range (v : BitVec 64) : -2 ^ 31 ≤ intArg v ∧ intArg v < 2 ^ 31 := by
  have hlow := (v.setWidth 32).le_toInt
  have hhigh := (v.setWidth 32).toInt_lt
  rw [intArg]
  omega

theorem intArg_ofNat {n : Nat} (hn : n < 2 ^ 31) : intArg (.ofNat 64 n) = n := by
  rw [intArg, BitVec.toInt_eq_toNat_cond, BitVec.toNat_setWidth, BitVec.toNat_ofNat]
  omega

theorem toInt_signExtend : ((v.setWidth 32).signExtend 64).toInt = (v.setWidth 32).toInt := BitVec.toInt_signExtend_of_le (by decide)

theorem zeroExtend_toNat : ((v.setWidth 32).setWidth 64).toNat = (v.setWidth 32).toNat := by
  rw [BitVec.toNat_setWidth 64]
  exact Nat.mod_eq_of_lt (Nat.lt_trans (v.setWidth 32).isLt (by decide))

theorem eq_zero_iff : num = 0 ↔ num.toInt = 0 := by
  rw [← BitVec.toInt_inj]
  rfl

theorem slt_zero : num.slt 0 = true ↔ num.toInt < 0 := by
  rw [BitVec.slt_iff_toInt_lt]
  rfl

/-- The magnitude that is printed. -/
theorem toNat_magnitude : (if num.slt 0 then -num else num).toNat = num.toInt.natAbs := by
  by_cases hneg : num.slt 0 = true
  · rw [if_pos hneg]
    have hlt := slt_zero.mp hneg
    rw [BitVec.toInt_eq_toNat_cond] at hlt ⊢
    rw [BitVec.toNat_neg]
    omega
  · rw [if_neg hneg]
    have hlt := mt slt_zero.mpr hneg
    rw [BitVec.toInt_eq_toNat_cond] at hlt ⊢
    omega

end Arguments

namespace IsoConversion

variable (c : IsoConversion) (v : BitVec 64)

theorem width_eq : c.fmtFlags.width = c.widthNat ∧ c.widthNat < 2 ^ 31 := by
  have hlt := c.width_lt
  have hstar := c.width_star
  rw [Conversion.fmtFlags, Conversion.widthNat]
  rcases hw : c.width with _ | ds | w
  · exact ⟨rfl, by decide⟩
  · have hlt := hlt _ hw
    exact ⟨intArg_ofNat hlt, hlt⟩
  · exact ⟨(Int.toNat_of_nonneg (hstar w hw)).symm, hlt _ hw⟩

theorem precOf : PrecOf c.precNat c.fmtFlags.prec := by
  have hstar := c.prec_star
  rw [Conversion.fmtFlags, Conversion.precNat]
  rcases hp : c.prec with _ | ds | w
  · rfl
  · rw [Option.map_some, PrecOf]
    split
    case isTrue hlt => exact intArg_ofNat hlt
    · exact intArg_range _
  · have hrange := intArg_range w
    have hpos := hstar w hp
    have hnat : (intArg w).toNat < 2 ^ 31 := by omega
    rw [Option.map_some, PrecOf]
    exact (if_pos hnat).mpr (Int.toNat_of_nonneg hpos).symm

/-- What `print_dec_int` is given. -/
def num : BitVec 64 := if c.long then v else (v.setWidth 32).signExtend 64

theorem num_long (h : c.long = true) : c.num v = v := if_pos h

theorem num_int (h : ¬ c.long = true) : c.num v = (v.setWidth 32).signExtend 64 := if_neg h

section Signed
variable {c v}

theorem value_signed (hconv : c.conv = .d ∨ c.conv = .i) : (c.num v).toInt = c.value v := by
  have hvalue : c.value v = if c.long then v.toInt else (v.setWidth 32).toInt := by
    rcases hconv with h | h <;> rw [Conversion.value, h]
  rw [hvalue]
  by_cases hl : c.long = true
  · rw [num_long c v hl, if_pos hl]
  · rw [num_int c v hl, if_neg hl, toInt_signExtend]

theorem lead_signed (hconv : c.conv = .d ∨ c.conv = .i) : c.isoLead v = signText ((c.num v).slt 0) c.fmtFlags := by
  have hlead : c.isoLead v = if c.value v < 0 then ['-'.toUInt8] else if .plus ∈ c.flags then ['+'.toUInt8]
      else if .space ∈ c.flags then [' '.toUInt8] else [] := by
    rcases hconv with h | h <;> rw [Conversion.isoLead, h]
  have hplus : c.fmtFlags.sign = true ↔ .plus ∈ c.flags := decide_eq_true_iff
  have hspace : c.fmtFlags.spaceflag = true ↔ .space ∈ c.flags := decide_eq_true_iff
  rw [hlead, signText]
  simp only [slt_zero, value_signed hconv, hplus, hspace]

theorem number_signed (hconv : c.conv = .d ∨ c.conv = .i) : c.isoNumber v = (isoDigits 10 (c.value v).natAbs).map decimal := by
  rcases hconv with h | h <;> rw [Conversion.isoNumber, h]

theorem min_iff : c.num v = 0x8000000000000000 ↔ c.long ∧ v = 0x8000000000000000 := by
  by_cases hl : c.long = true
  · rw [num_long c v hl]
    exact ⟨fun h => ⟨hl, h⟩, fun h => h.2⟩
  · refine iff_of_false (fun h => ?_) fun h => hl h.1
    have hlow := (v.setWidth 32).le_toInt
    rw [← toInt_signExtend, ← num_int c v hl, h] at hlow
    exact absurd hlow (by decide)

/-- The least `long`. -/
theorem longMin_eq : longMin.bytes = field 0 0 ['-'.toUInt8] ((isoDigits 10 (2 ^ 63)).map decimal) := by
  rw [← isoDigits_eq (k := 20) (by decide) (by decide) (by decide)]
  decide

theorem signed_min (hconv : c.conv = .d ∨ c.conv = .i) (hmin : c.long ∧ v = 0x8000000000000000) :
    decText (c.num v) true c.fmtFlags = c.isoText v ↔ (∀ p ∈ c.precNat, p < 2 ^ 31) ∧ c.widthNat ≤ 20 ∧ ∀ p ∈ c.precNat, p ≤ 19 := by
  have hnum : c.num v = 0x8000000000000000 := min_iff.mpr hmin
  have hvalue : c.value v = -2 ^ 63 := by rw [← value_signed hconv, hnum]; decide
  have hlead : c.isoLead v = ['-'.toUInt8] := by rw [lead_signed hconv, hnum]; rfl
  have hnumber : c.isoNumber v = (isoDigits 10 (2 ^ 63)).map decimal := by rw [number_signed hconv, hvalue]; rfl
  have hlen : ((isoDigits 10 (2 ^ 63)).map decimal).length = 19 := by
    rw [← isoDigits_eq (k := 20) (by decide) (by decide) (by decide)]
    decide
  have hne : (isoDigits 10 (2 ^ 63)).map decimal ≠ [] := List.length_pos_iff.mp (by omega)
  have hnz : ¬ (c.precNat = some 0 ∧ c.value v = 0) := fun h => absurd (hvalue.symm.trans h.2) (by decide)
  rw [decText, if_pos ⟨rfl, hnum⟩, Conversion.isoText, if_neg hnz, hlead, hnumber, isoField_eq fun _ => hne, longMin_eq,
    field_inj (blank_notMem_decimal (by decide)), Int.toNat_natCast, Int.toNat_natCast, hlen, isoBlanks, isoZeros]
  cases c.precNat with
  | none =>
      simp only [Option.getD_none, Option.not_mem_none, false_imp_iff, implies_true, true_and, and_true, List.length_singleton,
        Int.toNat_zero]
      split <;> omega
  | some p =>
      have hprec : ¬ (decide (Flag.zero ∈ c.flags) = true ∧ some p = none) := fun h => by cases h.2
      rw [if_neg hprec, if_neg hprec]
      simp only [Option.getD_some, Option.mem_def, Option.some.injEq, forall_eq', List.length_singleton, Int.toNat_zero]
      omega

theorem signed_iff (hconv : c.conv = .d ∨ c.conv = .i) : decText (c.num v) true c.fmtFlags = c.isoText v ↔ c.Conforms v := by
  have hconforms : c.Conforms v ↔ (∀ p ∈ c.precNat, p < 2 ^ 31) ∧
      if c.long ∧ v = 0x8000000000000000 then c.widthNat ≤ 20 ∧ ∀ p ∈ c.precNat, p ≤ 19
      else ¬ (c.precNat = some 0 ∧ c.value v = 0 ∧ (0 < c.widthNat ∨ c.isoLead v ≠ [])) ∧
        ∀ p ∈ c.precNat, c.isoLead v ≠ [] → p ≤ (c.isoNumber v).length := by
    rcases hconv with h | h <;> rw [Conversion.Conforms, h]
  rw [hconforms]
  by_cases hmin : c.long = true ∧ v = 0x8000000000000000
  · rw [if_pos hmin, signed_min hconv hmin]
  · rw [if_neg hmin]
    have hzero : c.num v = 0 ↔ c.value v = 0 := by rw [eq_zero_iff, value_signed hconv]
    have hds : c.isoNumber v = (isoDigits 10 (if true && (c.num v).slt 0 then -c.num v else c.num v).toNat).map decimal := by
      rw [Bool.true_and, toNat_magnitude, number_signed hconv, value_signed hconv]
    have hdec := decText_iff c.width_eq.1 c.width_eq.2 c.precOf (fun h => hmin (min_iff.mp h.2)) (lead_signed hconv) hds
    simp only [hzero] at hdec
    exact hdec

end Signed

section Unsigned
variable {c v}

/-- The value of `u` without `l` is printed as it is below `2 ^ 31`. -/
theorem value_unsigned (hconv : c.conv = .u) : ((c.num v).toNat : Int) = c.value v ↔ c.long = true ∨ c.value v < 2 ^ 31 := by
  have hvalue : c.value v = if c.long then (v.toNat : Int) else (v.setWidth 32).toNat := by rw [Conversion.value, hconv]
  by_cases hl : c.long = true
  · rw [hvalue, num_long c v hl, if_pos hl]
    exact iff_of_true rfl (.inl hl)
  · have hsign := @toInt_signExtend v
    have hlt := ((v.setWidth 32).signExtend 64).isLt
    have hlt' := (v.setWidth 32).isLt
    rw [BitVec.toInt_eq_toNat_cond, BitVec.toInt_eq_toNat_cond] at hsign
    rw [hvalue, num_int c v hl, if_neg hl]
    simp only [hl, Bool.false_eq_true, false_or]
    omega

theorem unsigned_iff (hconv : c.conv = .u) : decText (c.num v) false c.fmtFlags = c.isoText v ↔ c.Conforms v := by
  have hlead : c.isoLead v = [] := by rw [Conversion.isoLead, hconv]
  have hnumber : c.isoNumber v = (isoDigits 10 (c.value v).natAbs).map decimal := by rw [Conversion.isoNumber, hconv]
  have hconforms : c.Conforms v ↔ (∀ p ∈ c.precNat, p < 2 ^ 31) ∧ (c.long = true ∨ c.value v < 2 ^ 31) ∧
      ¬ (c.precNat = some 0 ∧ c.value v = 0 ∧ 0 < c.widthNat) := by rw [Conversion.Conforms, hconv]
  rw [hconforms]
  by_cases hsmall : c.long = true ∨ c.value v < 2 ^ 31
  · have hvalue := (value_unsigned hconv).mpr hsmall
    have hzero : c.num v = 0 ↔ c.value v = 0 := by
      rw [← hvalue, Int.natCast_eq_zero, ← BitVec.toNat_inj]
      rfl
    have hds : c.isoNumber v = (isoDigits 10 (if false && (c.num v).slt 0 then -c.num v else c.num v).toNat).map decimal := by
      rw [hnumber, ← hvalue]
      rfl
    have hdec := decText_iff c.width_eq.1 c.width_eq.2 c.precOf (fun h => Bool.false_ne_true h.1) hlead hds
    simp only [hzero] at hdec
    rw [Conversion.isoText]
    refine hdec.trans ?_
    constructor
    · rintro ⟨hlt, hno, -⟩
      exact ⟨hlt, hsmall, fun h => hno ⟨h.1, h.2.1, .inl h.2.2⟩⟩
    · rintro ⟨hlt, -, hno⟩
      refine ⟨hlt, ?_, fun p _ hl => absurd hlead hl⟩
      rintro ⟨hprec, hval, hpos | hl⟩
      · exact hno ⟨hprec, hval, hpos⟩
      · exact hl hlead
  · -- the number that is printed is another one
    refine iff_of_false (fun htext => ?_) fun h => hsmall h.2.1
    have hl : ¬ c.long = true := fun hl => hsmall (.inl hl)
    have hvalue : c.value v = (v.setWidth 32).toNat := by rw [Conversion.value, hconv]; exact if_neg hl
    obtain ⟨w, hw⟩ : ∃ w : BitVec 64, w = (v.setWidth 32).setWidth 64 := ⟨_, rfl⟩
    have hwv : c.value v = w.toNat := by rw [hvalue, hw, zeroExtend_toNat]
    have hnz : c.num v ≠ 0 := by
      intro h
      have hsign := @toInt_signExtend v
      rw [← num_int c v hl, h, BitVec.toInt_eq_toNat_cond (v.setWidth 32)] at hsign
      rw [hvalue] at hsmall
      have hzero : (0 : BitVec 64).toInt = 0 := rfl
      rw [hzero] at hsign
      omega
    have hne : ¬ (c.precNat = some 0 ∧ c.value v = 0) := fun h => hsmall (.inr (h.2 ▸ by decide))
    have hdigits : c.isoNumber v = (decDigits 20 w.toNat).reverse := by
      have hlt : w.toNat < 10 ^ 20 := Nat.lt_trans w.isLt (by decide)
      rw [hnumber, hwv, decDigits_eq, ← List.map_reverse, isoDigits_eq (by decide) (by decide) hlt]
      rfl
    have hlen : c.isoNumber v ≠ [] := by
      rw [hdigits, ne_eq, List.reverse_eq_nil_iff]
      exact List.cons_ne_nil _ _
    rw [decText, if_neg fun h => Bool.false_ne_true h.1, if_neg fun h => hnz h.2, Conversion.isoText, if_neg hne, hlead,
      isoField_eq fun _ => hlen, hdigits] at htext
    have hread := congrArg (parseLong 10) htext
    have hsame : c.num v = w := (Prod.mk.inj (parse_unsigned.symm.trans (hread.trans parse_unsigned))).1
    exact hsmall ((value_unsigned hconv).mp (by rw [hsame, hwv]))

end Unsigned

section Hex
variable {c v}

/-- What `x` and `X` are given. -/
theorem hex_iff (hconv : c.conv = .x ∨ c.conv = .X) :
    hexText (if c.long then v else (v.setWidth 32).setWidth 64) c.conv.char c.fmtFlags = c.isoText v ↔ c.Conforms v := by
  obtain ⟨num, hnum⟩ : ∃ num, num = if c.long then v else (v.setWidth 32).setWidth 64 := ⟨_, rfl⟩
  have hvalue : c.value v = num.toNat := by
    have hval : c.value v = if c.long then (v.toNat : Int) else (v.setWidth 32).toNat := by
      rcases hconv with h | h <;> rw [Conversion.value, h]
    rw [hval, hnum]
    split
    · rfl
    · rw [zeroExtend_toNat]
  have hzero : num = 0 ↔ c.value v = 0 := by
    rw [hvalue, Int.natCast_eq_zero, ← BitVec.toNat_inj]
    rfl
  have hsharp : c.fmtFlags.sharpflag = true ↔ .sharp ∈ c.flags := decide_eq_true_iff
  have hlead : c.isoLead v = if c.fmtFlags.sharpflag && num != 0 then
      ['0'.toUInt8, if c.conv.char = 'X'.toUInt8 then 'X'.toUInt8 else 'x'.toUInt8] else [] := by
    simp only [Bool.and_eq_true, hsharp, bne_iff_ne, ne_eq, hzero]
    rcases hconv with h | h <;> rw [Conversion.isoLead, h] <;> rfl
  have hds : c.isoNumber v = (isoDigits 16 num.toNat).map (hexadecimal c.conv.char) := by
    rcases hconv with h | h <;> rw [Conversion.isoNumber, h, hvalue] <;> rfl
  have hc : c.conv.char ≠ 'p'.toUInt8 := by rcases hconv with h | h <;> rw [h] <;> decide
  have hconforms : c.Conforms v ↔ (∀ p ∈ c.precNat, p < 2 ^ 31) ∧ ¬ (c.precNat = some 0 ∧ c.value v = 0 ∧ 0 < c.widthNat) ∧
      ¬ (c.isoLead v ≠ [] ∧ c.precNat = some (2 ^ 31 - 1) ∧ c.widthNat = 0) := by
    rcases hconv with h | h <;> rw [Conversion.Conforms, h]
  have hhex := hexText_iff c.width_eq.1 c.width_eq.2 c.precOf hc hlead hds
  simp only [hzero] at hhex
  rw [← hnum, hconforms]
  exact hhex

end Hex

/-- `vprintfmt` prints a conversion as ISO C specifies it exactly when its argument conforms. -/
theorem vprintfmt_iso (mem : Nat → Option UInt8) (c : IsoConversion) (v : BitVec 64) :
    Ends (vprintfmt mem c.format) ⟨c.args v, []⟩ (fun _ t => printed t.trace = c.isoText v ↔ c.Conforms v) fun _ _ => False := by
  refine (c.vprintfmt_text v).mono (fun _ t ht => ?_) fun _ _ h => h
  rw [ht]
  cases hconv : c.conv with
  | d =>
      have hiff := signed_iff (c := c) (v := v) (.inl hconv)
      exact hiff
  | i =>
      have hiff := signed_iff (c := c) (v := v) (.inr hconv)
      exact hiff
  | u =>
      have hiff := unsigned_iff (c := c) (v := v) hconv
      exact hiff
  | x =>
      have hiff := hex_iff (c := c) (v := v) (.inl hconv)
      rw [hconv] at hiff
      exact hiff
  | X =>
      have hiff := hex_iff (c := c) (v := v) (.inr hconv)
      rw [hconv] at hiff
      exact hiff

/-- `%u` -/
def plainU : IsoConversion where
  flags := []
  width := none
  prec := none
  long := false
  conv := .u
  width_digits := Conversion.no_width
  width_lt := fun _ h => (Option.some_ne_none _ h.symm).elim
  width_star := fun _ h => (Option.some_ne_none _ h.symm).elim
  prec_star := fun _ h => (Option.some_ne_none _ h.symm).elim
  sharp_hex := fun h => (List.not_mem_nil h).elim

/-- `vprintfmt("%u", 4294967295)` -/
theorem vprintfmt_plainU : plainU.isoText 0xffffffff = text "4294967295" ∧
    Ends (vprintfmt (fun _ => none) plainU.format) ⟨plainU.args 0xffffffff, []⟩
      (fun _ t => printed t.trace = text "18446744073709551615") fun _ _ => False := by
  have hdigits : isoDigits 10 4294967295 = [4, 2, 9, 4, 9, 6, 7, 2, 9, 5] := by
    rw [← isoDigits_eq (k := 20) (by decide) (by decide) (by decide)]
    decide
  have hnumber : plainU.isoNumber 0xffffffff = (isoDigits 10 4294967295).map decimal := rfl
  constructor
  · rw [Conversion.isoText, hnumber, hdigits]
    decide
  · refine (plainU.vprintfmt_text 0xffffffff).mono (fun _ t ht => ht.trans ?_) fun _ _ h => h
    decide

end IsoConversion

end ZjuOs.Printk
