import ZjuOs.Conversion

/-!
`strtol` reads back the numbers that `vprintfmt` prints.
-/
namespace ZjuOs.Printk
open Exec Numerals

section Digits
variable {n v : Nat}

theorem decDigits_eq : decDigits n v = (fill 10 n v).map decimal := by
  induction n generalizing v with
  | zero => rfl
  | succ n ih =>
      rw [decDigits, fill, List.map_cons, ih]
      split <;> rfl

/-- The digits of a hexadecimal number. -/
def hexadecimal (c : UInt8) (d : Nat) : UInt8 := (if c = 'X'.toUInt8 then upperxdigits else lowerxdigits).getD d 0

theorem hexDigits_eq {c : UInt8} :
    hexDigits (if c = 'X'.toUInt8 then upperxdigits else lowerxdigits) n v = (fill 16 n v).map (hexadecimal c) := by
  induction n generalizing v with
  | zero => rfl
  | succ n ih =>
      have hmod : v &&& 0xf = v % 16 := Nat.and_two_pow_sub_one_eq_mod v 4
      have hdiv : v >>> 4 = v / 16 := Nat.shiftRight_eq_div_pow v 4
      rw [hexDigits, fill, List.map_cons, ih, hmod, hdiv]
      by_cases hzero : v / 16 = 0
      · rw [if_pos hzero, if_pos hzero]
        rfl
      · rw [if_neg hzero, if_neg hzero]
        rfl

theorem hexadecimal_spec (c : UInt8) : ∀ d < 16, digitOf (hexadecimal c d) = some d ∧ isspace (hexadecimal c d) = false ∧
    hexadecimal c d ≠ '-'.toUInt8 ∧ hexadecimal c d ≠ '+'.toUInt8 ∧ hexadecimal c d ≠ 'x'.toUInt8 ∧ hexadecimal c d ≠ 'X'.toUInt8 ∧
    hexadecimal c d ≠ 0 := by
  unfold hexadecimal
  split <;> decide

end Digits

section Parse
variable {b k z : Nat} {cs : List UInt8}

theorem parseLong_spaces : parseLong b (.replicate k ' '.toUInt8 ++ cs) = parseLong b cs := by
  have hdrop : (List.replicate k ' '.toUInt8 ++ cs).dropWhile isspace = cs.dropWhile isspace := by
    induction k with
    | zero => rfl
    | succ k ih =>
        rw [List.replicate_succ, List.cons_append, List.dropWhile_cons, if_pos (by decide), ih]
  rw [parseLong, parseLong, hdrop]

theorem parseLong_space : parseLong b (' '.toUInt8 :: cs) = parseLong b cs := @parseLong_spaces b 1 cs

theorem parseLong_minus (hb : b ≠ 0) : parseLong b ('-'.toUInt8 :: cs) = (-(parseDigits b 0 cs).1, (parseDigits b 0 cs).2) := by
  have hsign : parseSign (('-'.toUInt8 :: cs).dropWhile isspace) = (true, cs) := rfl
  have hbase : parseBase b cs = (b, cs) := if_neg hb
  rw [parseLong, hsign]
  dsimp only
  rw [hbase]
  rfl

theorem parseLong_plus (hb : b ≠ 0) : parseLong b ('+'.toUInt8 :: cs) = parseDigits b 0 cs := by
  have hsign : parseSign (('+'.toUInt8 :: cs).dropWhile isspace) = (false, cs) := rfl
  have hbase : parseBase b cs = (b, cs) := if_neg hb
  rw [parseLong, hsign]
  dsimp only
  rw [hbase]
  rfl

/-- Behind a prefix the base is 16. -/
theorem parseLong_prefix {x : UInt8} (hx : x = 'x'.toUInt8 ∨ x = 'X'.toUInt8) :
    parseLong 0 ('0'.toUInt8 :: x :: cs) = parseDigits 16 0 cs := by
  have hsign : parseSign (('0'.toUInt8 :: x :: cs).dropWhile isspace) = (false, '0'.toUInt8 :: x :: cs) := rfl
  have hbase : parseBase 0 ('0'.toUInt8 :: x :: cs) = (16, cs) := by
    rw [parseBase, if_pos rfl, parseRadix, if_pos rfl, parsePrefix, if_pos hx]
  rw [parseLong, hsign]
  dsimp only
  rw [hbase]
  rfl

/-- Leading zeros and the digits of a number below `2 ^ 64`. -/
theorem parseDigits_fill {chr : Nat → UInt8} {v : BitVec 64} {n : Nat} (hb : 1 < b) (hchr : ∀ d < b, digitOf (chr d) = some d)
    (hn : 0 < n) (hlt : v.toNat < b ^ n) (hzero : chr 0 = '0'.toUInt8) :
    parseDigits b 0 (.replicate z '0'.toUInt8 ++ ((fill b n v.toNat).map chr).reverse) = (v, []) := by
  have hds : ∀ d ∈ List.replicate z 0 ++ (fill b n v.toNat).reverse, d < b := by
    intro d hd
    rcases List.mem_append.mp hd with hd | hd
    · rw [List.eq_of_mem_replicate hd]
      exact Nat.zero_lt_of_lt hb
    · exact fill_lt (Nat.zero_lt_of_lt hb) d (List.mem_reverse.mp hd)
  have hmap : List.replicate z '0'.toUInt8 ++ ((fill b n v.toNat).map chr).reverse =
      (List.replicate z 0 ++ (fill b n v.toNat).reverse).map chr ++ [] := by
    rw [List.append_nil, List.map_append, List.map_replicate, hzero, List.map_reverse]
  rw [hmap]
  refine (parseDigits_read hchr hds 0).trans ?_
  rw [read_fill hb hn hlt, BitVec.ofNat_toNat, BitVec.setWidth_eq]
  rfl

theorem mem_digits {chr : Nat → UInt8} {v n : Nat} {c : UInt8} (hb : 0 < b) (hzero : chr 0 = '0'.toUInt8)
    (hc : c ∈ .replicate z '0'.toUInt8 ++ ((fill b n v).map chr).reverse) : ∃ d < b, chr d = c := by
  rcases List.mem_append.mp hc with hc | hc
  · exact ⟨0, hb, hzero.trans (List.eq_of_mem_replicate hc).symm⟩
  · obtain ⟨d, hd, rfl⟩ := List.mem_map.mp (List.mem_reverse.mp hc)
    exact ⟨d, fill_lt hb d hd, rfl⟩

theorem decimal_head {n v : Nat} : ∀ c ∈ (List.replicate z '0'.toUInt8 ++ ((fill 10 n v).map decimal).reverse).head?,
    isspace c = false ∧ c ≠ '-'.toUInt8 ∧ c ≠ '+'.toUInt8 := by
  intro c hc
  obtain ⟨d, hd, rfl⟩ := mem_digits (by decide) (by decide) (List.mem_of_mem_head? hc)
  obtain ⟨-, -, -, hspace, hneg, hpos, -⟩ := decimal_spec d hd
  exact ⟨hspace, hneg, hpos⟩

end Parse

section Texts
variable {v : BitVec 64} {flags : FmtFlags} {c : UInt8}

/-- A number without a sign. -/
theorem parse_unsigned {spaces zeros : Int} : parseLong 10 (field spaces zeros [] (decDigits 20 v.toNat).reverse) = (v, []) := by
  have hlt : v.toNat < 10 ^ 20 := Nat.lt_of_lt_of_le v.isLt (by decide)
  rw [field, decDigits_eq, List.append_nil, List.append_assoc, parseLong_spaces, parseLong_head (by decide) decimal_head]
  exact parseDigits_fill (by decide) (fun d hd => (decimal_spec d hd).2.2.1) (by decide) hlt (by decide)

theorem parse_decText (h : ¬ (flags.prec = 0 ∧ v = 0)) : parseLong 10 (decText v true flags) = (v, []) := by
  rw [decText]
  by_cases hmin : v = 0x8000000000000000
  · rw [if_pos ⟨rfl, hmin⟩, hmin]
    decide
  · rw [if_neg fun hm => hmin hm.2, if_neg h]
    obtain ⟨w, hw⟩ : ∃ w, w = if v.slt 0 then -v else v := ⟨_, rfl⟩
    simp only [Bool.true_and, if_true, ← hw, field, decDigits_eq]
    generalize Int.toNat _ = k
    generalize Int.toNat _ = z
    have hlt : w.toNat < 10 ^ 20 := Nat.lt_of_lt_of_le w.isLt (by decide)
    have hread := @parseDigits_fill 10 z decimal w 20 (by decide) (fun d hd => (decimal_spec d hd).2.2.1) (by decide) hlt (by decide)
    have hhead := @decimal_head z 20 w.toNat
    rw [List.append_assoc, List.append_assoc, parseLong_spaces, signText]
    by_cases hneg : v.slt 0 = true
    · rw [if_pos hneg] at hw
      rw [if_pos hneg, List.singleton_append, parseLong_minus (by decide), hread, hw, BitVec.neg_neg]
    · rw [if_neg hneg] at hw
      rw [if_neg hneg, ← hw]
      split
      · rw [List.singleton_append, parseLong_plus (by decide), hread]
      · split
        · rw [List.singleton_append, parseLong_space, parseLong_head (by decide) hhead, hread]
        · rw [List.nil_append, parseLong_head (by decide) hhead, hread]

/-- A hexadecimal text has a prefix when it has a character `x` or `X`. -/
def Prefixed (cs : List UInt8) : Prop := 'x'.toUInt8 ∈ cs ∨ 'X'.toUInt8 ∈ cs

instance (cs : List UInt8) : Decidable (Prefixed cs) := inferInstanceAs (Decidable (_ ∨ _))

theorem parse_hexText (h : ¬ (flags.prec = 0 ∧ v = 0)) :
    parseLong (if Prefixed (hexText v c flags) then 0 else 16) (hexText v c flags) = (v, []) := by
  obtain ⟨cs, hcs⟩ : ∃ cs, cs = hexText v c flags := ⟨_, rfl⟩
  rw [← hcs]
  rw [hexText, if_neg fun hz => h ⟨hz.1, hz.2.1⟩] at hcs
  simp only [field, hexDigits_eq] at hcs
  generalize Int.toNat _ = k at hcs
  generalize Int.toNat _ = z at hcs
  have hlt : v.toNat < 16 ^ 16 := v.isLt
  have hzero : hexadecimal c 0 = '0'.toUInt8 := by
    rw [hexadecimal]
    split <;> decide
  have hread := @parseDigits_fill 16 z (hexadecimal c) v 16 (by decide) (fun d hd => (hexadecimal_spec c d hd).1) (by decide) hlt hzero
  split at hcs
  · -- the prefix is in the text
    have hx : ∃ x, (x = 'x'.toUInt8 ∨ x = 'X'.toUInt8) ∧ x = if c = 'X'.toUInt8 then 'X'.toUInt8 else 'x'.toUInt8 := by
      refine ⟨_, ?_, rfl⟩
      split
      · exact .inr rfl
      · exact .inl rfl
    obtain ⟨x, hx, hxc⟩ := hx
    rw [← hxc, List.append_assoc, List.append_assoc, List.cons_append, List.singleton_append] at hcs
    have hmem : x ∈ cs := by
      rw [hcs]
      exact List.mem_append_right _ (List.mem_cons_of_mem _ List.mem_cons_self)
    have hpre : Prefixed cs := by
      rcases hx with rfl | rfl
      · exact .inl hmem
      · exact .inr hmem
    rw [if_pos hpre, hcs, parseLong_spaces, parseLong_prefix hx, hread]
  · rw [List.append_nil, List.append_assoc] at hcs
    have hchars : ∀ ch ∈ cs, ch ≠ 'x'.toUInt8 ∧ ch ≠ 'X'.toUInt8 := by
      intro ch hch
      rw [hcs] at hch
      rcases List.mem_append.mp hch with hch | hch
      · rw [List.eq_of_mem_replicate hch]
        decide
      · obtain ⟨d, hd, rfl⟩ := mem_digits (by decide) hzero hch
        obtain ⟨-, -, -, -, hlower, hupper, -⟩ := hexadecimal_spec c d hd
        exact ⟨hlower, hupper⟩
    have hpre : ¬ Prefixed cs := fun hpre => hpre.elim (fun hx => (hchars _ hx).1 rfl) fun hx => (hchars _ hx).2 rfl
    have hhead : ∀ ch ∈ (List.replicate z '0'.toUInt8 ++ ((fill 16 16 v.toNat).map (hexadecimal c)).reverse).head?,
        isspace ch = false ∧ ch ≠ '-'.toUInt8 ∧ ch ≠ '+'.toUInt8 := by
      intro ch hch
      obtain ⟨d, hd, rfl⟩ := mem_digits (by decide) hzero (List.mem_of_mem_head? hch)
      obtain ⟨-, hspace, hneg, hpos, -⟩ := hexadecimal_spec c d hd
      exact ⟨hspace, hneg, hpos⟩
    rw [if_neg hpre, hcs, parseLong_spaces, parseLong_head (by decide) hhead, hread]

theorem field_noNul {spaces zeros : Int} {lead digits : List UInt8} (hlead : 0 ∉ lead) (hdigits : 0 ∉ digits) :
    0 ∉ field spaces zeros lead digits := by
  have hrep : ∀ n (c : UInt8), c ≠ 0 → 0 ∉ List.replicate n c := fun n c hc h => hc (List.eq_of_mem_replicate h).symm
  rw [field, List.mem_append, List.mem_append, List.mem_append]
  rintro (((h | h) | h) | h)
  · exact hrep _ _ (by decide) h
  · exact hlead h
  · exact hrep _ _ (by decide) h
  · exact hdigits h

theorem decText_noNul : 0 ∉ decText v true flags := by
  rw [decText]
  split
  · decide
  · split
    · exact List.not_mem_nil
    · refine field_noNul ?_ fun h => ?_
      · rw [if_pos rfl, signText]
        split
        · decide
        · split
          · decide
          · split <;> decide
      · rw [decDigits_eq, List.mem_reverse] at h
        obtain ⟨d, hd, hzero⟩ := List.mem_map.mp h
        exact (decimal_spec d (fill_lt (by decide) d hd)).2.2.2.2.2.2.2 hzero

theorem hexText_noNul : 0 ∉ hexText v c flags := by
  rw [hexText]
  split
  · exact List.not_mem_nil
  · refine field_noNul ?_ fun h => ?_
    · split
      · split <;> decide
      · exact List.not_mem_nil
    · rw [hexDigits_eq, List.mem_reverse] at h
      obtain ⟨d, hd, hzero⟩ := List.mem_map.mp h
      exact (hexadecimal_spec c d (fill_lt (by decide) d hd)).2.2.2.2.2.2 hzero

end Texts

section RoundTrip
variable {mem : Nat → Option UInt8}

/-- The base in which the text of a conversion is read back. -/
def Conversion.base (c : Conversion) (cs : List UInt8) : Nat :=
  match c.conv with
  | .x | .X => if Prefixed cs then 0 else 16
  | _ => 10

theorem strtol_text {s : CString} {b : Nat} {v : BitVec 64} (h : parseLong b s.bytes = (v, [])) :
    strtol s 0 b = pure (v, s.bytes.length) := by
  have hstrtol := @strtol_eq s s.bytes b (List.suffix_refl _)
  rw [s.pos_bytes, h] at hstrtol
  exact hstrtol

/-- `strtol` reads back the value of `%ld`, `%lx` and `%lX` from the text that `vprintfmt` prints, up to its end. Only
the precision 0 prints nothing for the value 0. -/
theorem strtol_vprintfmt (mem : Nat → Option UInt8) (c : Conversion) (v : BitVec 64) (hlong : c.long = true)
    (hconv : c.conv ∈ [.d, .x, .X]) (hzero : ¬ (c.prec.map Count.int = some 0 ∧ v = 0)) :
    ∃ s : CString, Ends (vprintfmt mem c.format) ⟨c.args v, []⟩ (fun _ t => printed t.trace = s.bytes) (fun _ _ => False) ∧
      strtol s 0 (c.base s.bytes) = pure (v, s.bytes.length) := by
  have hprec : ¬ (c.fmtFlags.prec = 0 ∧ v = 0) := by
    rintro ⟨hp, rfl⟩
    refine hzero ⟨?_, rfl⟩
    rw [Conversion.fmtFlags] at hp
    cases hc : c.prec with
    | none =>
        rw [hc] at hp
        exact absurd hp (by decide : (-1 : Int) ≠ 0)
    | some p =>
        rw [hc] at hp
        exact congrArg some hp
  have hprint := @Conversion.vprintfmt_text mem c v
  have hl : c.fmtFlags.longflag = true := hlong
  rw [List.mem_cons, List.mem_cons, List.mem_singleton] at hconv
  rcases hconv with hd | hx | hx
  · have harg : (argText mem c.conv.char c.fmtFlags v).1 = decText v true c.fmtFlags := by
      rw [hd, argText, hl]
      rfl
    rw [harg] at hprint
    refine ⟨⟨decText v true c.fmtFlags, decText_noNul⟩, hprint, ?_⟩
    rw [Conversion.base, hd]
    exact strtol_text (parse_decText hprec)
  · have harg : (argText mem c.conv.char c.fmtFlags v).1 = hexText v 'x'.toUInt8 c.fmtFlags := by
      rw [hx, argText, hl]
      rfl
    rw [harg] at hprint
    refine ⟨⟨hexText v 'x'.toUInt8 c.fmtFlags, hexText_noNul⟩, hprint, ?_⟩
    rw [Conversion.base, hx]
    exact strtol_text (parse_hexText hprec)
  · have harg : (argText mem c.conv.char c.fmtFlags v).1 = hexText v 'X'.toUInt8 c.fmtFlags := by
      rw [hx, argText, hl]
      rfl
    rw [harg] at hprint
    refine ⟨⟨hexText v 'X'.toUInt8 c.fmtFlags, hexText_noNul⟩, hprint, ?_⟩
    rw [Conversion.base, hx]
    exact strtol_text (parse_hexText hprec)

/-- `%#08lx` -/
def hashHex : Conversion where
  flags := [.sharp, .zero]
  width := some (.digits [8])
  prec := none
  long := true
  conv := .x
  width_digits := fun _ h => ⟨8, [], (Count.digits.inj (Option.some.inj h)).symm, by decide⟩

theorem strtol_vprintfmt_hashHex : ∃ s : CString,
    Ends (vprintfmt (fun _ => none) hashHex.format) ⟨hashHex.args 255, []⟩ (fun _ t => printed t.trace = s.bytes) (fun _ _ => False) ∧
      strtol s 0 (hashHex.base s.bytes) = pure (255, s.bytes.length) :=
  strtol_vprintfmt _ hashHex 255 rfl (by decide) fun h => absurd h.2 (by decide)

end RoundTrip

end ZjuOs.Printk
