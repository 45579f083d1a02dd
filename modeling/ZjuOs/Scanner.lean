import ZjuOs.Emission

/-!
The cursor of `vprintfmt` and `strtol`. A cursor is the position of a suffix of the string, and every loop moves from
a suffix to a shorter one.
-/
namespace ZjuOs.Printk

namespace CString

variable {s : CString} {c : UInt8} {cs ds : List UInt8}

/-- The position of a suffix. -/
def pos (s : CString) (cs : List UInt8) : Nat := s.bytes.length - cs.length

theorem pos_bytes (s : CString) : s.pos s.bytes = 0 := Nat.sub_self _

theorem pos_succ (h : c :: cs <:+ s.bytes) : s.pos (c :: cs) + 1 = s.pos cs := by
  have hle := h.length_le
  rw [List.length_cons] at hle
  rw [pos, pos, List.length_cons]
  omega

theorem pos_lt (h : ds <:+ s.bytes) (hlt : cs.length < ds.length) : s.pos ds < s.pos cs := by
  have hle := h.length_le
  rw [pos, pos]
  omega

theorem suffix_tail (h : c :: cs <:+ s.bytes) : cs <:+ s.bytes := (List.suffix_cons c cs).trans h

theorem read_nil : s.read (s.pos []) = pure 0 := by
  rw [read, pos, List.length_nil, Nat.sub_zero, dif_neg (Nat.lt_irrefl _), if_pos rfl]

theorem read_cons (h : c :: cs <:+ s.bytes) : s.read (s.pos (c :: cs)) = pure c := by
  obtain ⟨pre, hpre⟩ := h
  have hpos : s.pos (c :: cs) = pre.length := by
    rw [pos, ← hpre, List.length_append, Nat.add_sub_cancel]
  have hlt : pre.length < s.bytes.length := by
    rw [← hpre, List.length_append, List.length_cons]
    omega
  rw [hpos, read, dif_pos hlt]
  simp only [← hpre, List.getElem_append_right (Nat.le_refl _), Nat.sub_self, List.getElem_cons_zero]

theorem ne_zero (h : c :: cs <:+ s.bytes) : c ≠ 0 := by
  rintro rfl
  exact s.noNul (h.subset List.mem_cons_self)

end CString

section Parse

def parseDigits (base : Nat) : BitVec 64 → List UInt8 → BitVec 64 × List UInt8
  | ret, [] => (ret, [])
  | ret, c :: cs =>
      match digitOf c with
      | none => (ret, c :: cs)
      | some d =>
          if base ≤ d then (ret, c :: cs) else parseDigits base (ret * BitVec.ofNat 64 base + BitVec.ofNat 64 d) cs

def parseSign : List UInt8 → Bool × List UInt8
  | [] => (false, [])
  | c :: cs => if c = '-'.toUInt8 then (true, cs) else if c = '+'.toUInt8 then (false, cs) else (false, c :: cs)

/-- The rest of `0x`, or of a leading zero. -/
def parsePrefix : List UInt8 → Nat × List UInt8
  | [] => (8, [])
  | x :: cs => if x = 'x'.toUInt8 ∨ x = 'X'.toUInt8 then (16, cs) else (8, x :: cs)

def parseRadix : List UInt8 → Nat × List UInt8
  | [] => (10, [])
  | c :: cs => if c = '0'.toUInt8 then parsePrefix cs else (10, c :: cs)

def parseBase (base : Nat) (cs : List UInt8) : Nat × List UInt8 := if base = 0 then parseRadix cs else (base, cs)

/-- What `strtol` reads from the start of a text, and the text behind it. -/
def parseLong (base : Nat) (cs : List UInt8) : BitVec 64 × List UInt8 :=
  let sign := parseSign (cs.dropWhile isspace)
  let radix := parseBase base sign.2
  let value := parseDigits radix.1 0 radix.2
  (if sign.1 then -value.1 else value.1, value.2)

variable {cs : List UInt8} {base : Nat} {ret : BitVec 64}

theorem parseDigits_suffix : (parseDigits base ret cs).2 <:+ cs := by
  induction cs generalizing ret with
  | nil => exact List.suffix_refl _
  | cons c cs ih =>
      rw [parseDigits]
      cases digitOf c with
      | none => exact List.suffix_refl _
      | some d =>
          dsimp only
          split
          · exact List.suffix_refl _
          · exact ih.trans (List.suffix_cons _ _)

theorem parseSign_suffix : (parseSign cs).2 <:+ cs := by
  cases cs with
  | nil => exact List.suffix_refl _
  | cons c cs =>
      rw [parseSign]
      split
      · exact List.suffix_cons _ _
      · split
        · exact List.suffix_cons _ _
        · exact List.suffix_refl _

theorem parsePrefix_suffix : (parsePrefix cs).2 <:+ cs := by
  cases cs with
  | nil => exact List.suffix_refl _
  | cons x cs =>
      rw [parsePrefix]
      split
      · exact List.suffix_cons _ _
      · exact List.suffix_refl _

theorem parseBase_suffix : (parseBase base cs).2 <:+ cs := by
  rw [parseBase]
  split
  · cases cs with
    | nil => exact List.suffix_refl _
    | cons c cs =>
        rw [parseRadix]
        split
        · exact parsePrefix_suffix.trans (List.suffix_cons _ _)
        · exact List.suffix_refl _
  · exact List.suffix_refl _

theorem parseLong_suffix : (parseLong base cs).2 <:+ cs :=
  parseDigits_suffix.trans (parseBase_suffix.trans (parseSign_suffix.trans (List.dropWhile_suffix _)))

theorem digitOf_decimal {c : UInt8} (h : '0'.toUInt8 ≤ c) (h' : c ≤ '9'.toUInt8) : digitOf c = some (c.toNat - '0'.toNat) :=
  if_pos ⟨h, h'⟩

/-- A number that starts with a digit is read past that digit. -/
theorem parseLong_digit {c : UInt8} (cs : List UInt8) (h : '1'.toUInt8 ≤ c) (h' : c ≤ '9'.toUInt8) :
    (parseLong 10 (c :: cs)).2 <:+ cs := by
  have hlow : 49 ≤ c.toNat := UInt8.le_iff_toNat_le.mp h
  have hhigh : c.toNat ≤ 57 := UInt8.le_iff_toNat_le.mp h'
  have hspace : isspace c = false := by
    rw [isspace, Bool.or_eq_false_iff, Bool.and_eq_false_iff, decide_eq_false_iff_not, decide_eq_false_iff_not]
    refine ⟨fun hc => ?_, .inr ?_⟩
    · rw [hc] at hlow
      exact absurd hlow (by decide)
    · rw [decide_eq_false_iff_not, UInt8.le_iff_toNat_le]
      exact fun hc => absurd (Nat.le_trans hlow hc) (by decide)
  have hsign : parseSign (c :: cs) = (false, c :: cs) := by
    rw [parseSign, if_neg, if_neg] <;>
    · rintro rfl
      exact absurd hlow (by decide)
  have hdigit := digitOf_decimal (c := c) (UInt8.le_iff_toNat_le.mpr (Nat.le_trans (by decide : 48 ≤ 49) hlow)) h'
  have hbase : parseBase 10 (c :: cs) = (10, c :: cs) := rfl
  have hsmall : ¬ 10 ≤ c.toNat - '0'.toNat := by
    have hzero : '0'.toNat = 48 := rfl
    omega
  have hread : (parseLong 10 (c :: cs)).2 = (parseDigits 10 0 (c :: cs)).2 := by
    rw [parseLong, List.dropWhile_cons, hspace, if_neg Bool.false_ne_true, hsign, hbase]
  rw [hread, parseDigits, hdigit]
  dsimp only
  rw [if_neg hsmall]
  exact parseDigits_suffix

end Parse

section Strtol
variable {s : CString} {cs : List UInt8} {base n : Nat} {ret : BitVec 64}

theorem not_isspace_zero : isspace 0 = false := by decide

theorem digitOf_zero : digitOf 0 = none := by decide

theorem skipSpaces_eq (h : cs <:+ s.bytes) (hn : cs.length < n) :
    skipSpaces s n (s.pos cs) = pure (s.pos (cs.dropWhile isspace)) := by
  induction cs generalizing n with
  | nil =>
      obtain ⟨n, rfl⟩ := Nat.exists_eq_succ_of_ne_zero (Nat.ne_of_gt (Nat.zero_lt_of_lt hn))
      rw [skipSpaces, CString.read_nil, pure_bind, not_isspace_zero, if_neg Bool.false_ne_true, List.dropWhile_nil]
  | cons c cs ih =>
      obtain ⟨n, rfl⟩ := Nat.exists_eq_succ_of_ne_zero (Nat.ne_of_gt (Nat.zero_lt_of_lt hn))
      rw [skipSpaces, CString.read_cons h, pure_bind, List.dropWhile_cons]
      cases isspace c with
      | true => rw [if_pos rfl, if_pos rfl, CString.pos_succ h, ih (CString.suffix_tail h) (Nat.lt_of_succ_lt_succ hn)]
      | false => rw [if_neg Bool.false_ne_true, if_neg Bool.false_ne_true]

theorem readDigits_eq (h : cs <:+ s.bytes) (hn : cs.length < n) :
    readDigits s base n ret (s.pos cs) = pure ((parseDigits base ret cs).1, s.pos (parseDigits base ret cs).2) := by
  induction cs generalizing n ret with
  | nil =>
      obtain ⟨n, rfl⟩ := Nat.exists_eq_succ_of_ne_zero (Nat.ne_of_gt (Nat.zero_lt_of_lt hn))
      rw [readDigits, CString.read_nil, pure_bind, digitOf_zero, parseDigits]
  | cons c cs ih =>
      obtain ⟨n, rfl⟩ := Nat.exists_eq_succ_of_ne_zero (Nat.ne_of_gt (Nat.zero_lt_of_lt hn))
      rw [readDigits, CString.read_cons h, pure_bind, parseDigits]
      cases digitOf c with
      | none => rfl
      | some d =>
          dsimp only
          by_cases hd : base ≤ d
          · rw [if_pos hd, if_pos hd]
          · rw [if_neg hd, if_neg hd, CString.pos_succ h, ih (CString.suffix_tail h) (Nat.lt_of_succ_lt_succ hn)]

theorem readSign_eq (h : cs <:+ s.bytes) : readSign s (s.pos cs) = pure ((parseSign cs).1, s.pos (parseSign cs).2) := by
  cases cs with
  | nil =>
      rw [readSign, CString.read_nil, pure_bind, if_neg (by decide), if_neg (by decide), parseSign]
  | cons c cs =>
      rw [readSign, CString.read_cons h, pure_bind, parseSign]
      by_cases hneg : c = '-'.toUInt8
      · rw [if_pos hneg, if_pos hneg, CString.pos_succ h]
      · rw [if_neg hneg, if_neg hneg]
        by_cases hpos : c = '+'.toUInt8
        · rw [if_pos hpos, if_pos hpos, CString.pos_succ h]
        · rw [if_neg hpos, if_neg hpos]

theorem readBase_eq (h : cs <:+ s.bytes) :
    readBase s base (s.pos cs) = pure ((parseBase base cs).1, s.pos (parseBase base cs).2) := by
  rw [readBase, parseBase]
  by_cases hbase : base = 0
  · rw [if_pos hbase, if_pos hbase]
    cases cs with
    | nil => rw [CString.read_nil, pure_bind, if_neg (by decide), parseRadix]
    | cons c cs =>
        rw [CString.read_cons h, pure_bind, parseRadix]
        by_cases hc : c = '0'.toUInt8
        · rw [if_pos hc, if_pos hc, CString.pos_succ h]
          have htail := CString.suffix_tail h
          cases cs with
          | nil =>
              rw [CString.read_nil, pure_bind, if_neg (by decide), parsePrefix]
          | cons x ds =>
              rw [CString.read_cons htail, pure_bind, parsePrefix]
              by_cases hx : x = 'x'.toUInt8 ∨ x = 'X'.toUInt8
              · rw [if_pos hx, if_pos hx, ← CString.pos_succ htail, ← CString.pos_succ h]
              · rw [if_neg hx, if_neg hx]
        · rw [if_neg hc, if_neg hc]
  · rw [if_neg hbase, if_neg hbase]

/-- `strtol` stays in its string and reads the number that stands there. -/
theorem strtol_eq (h : cs <:+ s.bytes) :
    strtol s (s.pos cs) base = pure ((parseLong base cs).1, s.pos (parseLong base cs).2) := by
  have hdrop : cs.dropWhile isspace <:+ s.bytes := (List.dropWhile_suffix _).trans h
  have hsign : (parseSign (cs.dropWhile isspace)).2 <:+ s.bytes := parseSign_suffix.trans hdrop
  have hradix : (parseBase base (parseSign (cs.dropWhile isspace)).2).2 <:+ s.bytes := parseBase_suffix.trans hsign
  rw [strtol, skipSpaces_eq h (Nat.lt_succ_of_le h.length_le), pure_bind, readSign_eq hdrop, pure_bind]
  dsimp only
  rw [readBase_eq hsign, pure_bind]
  dsimp only
  rw [readDigits_eq hradix (Nat.lt_succ_of_le hradix.length_le), pure_bind]
  rfl

end Strtol

end ZjuOs.Printk
