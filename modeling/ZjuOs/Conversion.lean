import ZjuOs.Format
import ZjuOs.Numerals

/-!
A format that is one integer conversion: its syntax, and the flags that the scanner reads off it.
-/
namespace ZjuOs.Printk
open Exec Numerals

section Meaning
variable {mem : Nat → Option UInt8} {c : UInt8} {cs : List UInt8} {flags : FmtFlags} {args : List (BitVec 64)} {n m : Nat}

/-- What a stage prints. -/
def meaning (mem : Nat → Option UInt8) (x : Stage) : List UInt8 × Bool := formatted mem (x.rest.length + 1) x

theorem starred_suffix {set : Int → FmtFlags} {y : Stage} (h : (starred cs set args).2 = some y) : y.rest <:+ cs := by
  cases args with
  | nil => cases h
  | cons v vs =>
      cases h
      exact List.suffix_refl _

theorem precision_suffix {y : Stage} (h : (precision flags args cs).2 = some y) : y.rest <:+ cs := by
  cases cs with
  | nil =>
      cases h
      exact List.suffix_refl _
  | cons c cs =>
      rw [precision] at h
      split at h
      · exact (starred_suffix h).trans (List.suffix_cons _ _)
      · cases h
        exact parseLong_suffix

theorem converted_suffix {y : Stage} (h : (converted mem cs flags c args).2 = some y) : y.rest <:+ cs := by
  cases args with
  | nil =>
      rw [converted] at h
      split at h
      · cases h
      · cases h
        exact List.suffix_refl _
  | cons v vs =>
      rw [converted] at h
      split at h
      · dsimp only at h
        split at h
        · cases h
          exact List.suffix_refl _
        · cases h
      · cases h
        exact List.suffix_refl _

/-- A piece takes its text from the front. -/
theorem piece_suffix {y : Stage} (h : (piece mem cs flags c args).2 = some y) : y.rest <:+ cs := by
  rw [piece] at h
  split at h
  · split at h
    · cases h; exact List.suffix_refl _
    split at h
    · cases h; exact List.suffix_refl _
    split at h
    · cases h; exact List.suffix_refl _
    split at h
    · cases h; exact List.suffix_refl _
    split at h
    · cases h; exact List.suffix_refl _
    split at h
    · exact starred_suffix h
    split at h
    case isTrue hdigit =>
      cases h
      exact parseLong_digit cs hdigit.1 hdigit.2
    split at h
    · exact precision_suffix h
    · exact converted_suffix h
  · split at h
    · cases h; exact List.suffix_refl _
    · cases h; exact List.suffix_refl _

theorem formatted_fuel {y : Stage} (hn : y.rest.length < n) (hm : y.rest.length < m) : formatted mem n y = formatted mem m y := by
  induction n generalizing m y with
  | zero => exact absurd hn (Nat.not_lt_zero _)
  | succ n ih =>
      obtain ⟨m, rfl⟩ := Nat.exists_eq_succ_of_ne_zero (Nat.ne_of_gt (Nat.zero_lt_of_lt hm))
      obtain ⟨rest, flags, args⟩ := y
      cases rest with
      | nil => rfl
      | cons c cs =>
          rw [formatted_cons, formatted_cons]
          obtain ⟨⟨text, next⟩, hpiece⟩ : ∃ r, r = piece mem cs flags c args := ⟨_, rfl⟩
          rw [← hpiece]
          cases next with
          | none => rfl
          | some z =>
              have hsuf : z.rest <:+ cs := piece_suffix (by rw [← hpiece])
              have hlen := hsuf.length_le
              rw [List.length_cons] at hn hm
              dsimp only
              rw [ih (m := m) (by omega) (by omega)]

theorem meaning_nil : meaning mem ⟨[], flags, args⟩ = ([], true) := rfl

theorem meaning_cons {text : List UInt8} {y : Stage} (h : piece mem cs flags c args = (text, some y)) :
    meaning mem ⟨c :: cs, flags, args⟩ = (text ++ (meaning mem y).1, (meaning mem y).2) := by
  have hsuf : y.rest <:+ cs := piece_suffix (by rw [h])
  rw [meaning, formatted_cons, h]
  dsimp only
  have hfuel : formatted mem (c :: cs).length y = formatted mem (y.rest.length + 1) y :=
    formatted_fuel (Nat.lt_succ_of_le hsuf.length_le) (Nat.lt_succ_self _)
  rw [hfuel]
  rfl

theorem meaning_passed {ds : List UInt8} {flags' : FmtFlags} {args' : List (BitVec 64)}
    (h : piece mem cs flags c args = passed ds flags' args') :
    meaning mem ⟨c :: cs, flags, args⟩ = meaning mem ⟨ds, flags', args'⟩ := meaning_cons h

end Meaning

section Syntax

inductive Flag
  | sharp
  | zero
  | plus
  | space
  deriving DecidableEq

def Flag.char : Flag → UInt8
  | sharp => '#'.toUInt8
  | zero => '0'.toUInt8
  | plus => '+'.toUInt8
  | space => ' '.toUInt8

def Flag.set (fl : FmtFlags) : Flag → FmtFlags
  | sharp => { fl with sharpflag := true }
  | zero => { fl with zeroflag := true }
  | plus => { fl with sign := true }
  | space => { fl with spaceflag := true }

/-- A width or a precision: decimal digits, or `*` with its argument. -/
inductive Count
  | digits (ds : List (Fin 10))
  | star (v : BitVec 64)

def decimal (d : Nat) : UInt8 := UInt8.ofNat d + '0'.toUInt8

def Count.text : Count → List UInt8
  | digits ds => (ds.map Fin.val).map decimal
  | star _ => ['*'.toUInt8]

def Count.args : Count → List (BitVec 64)
  | digits _ => []
  | star v => [v]

/-- The `int` that the scanner gets. -/
def Count.int : Count → Int
  | digits ds => intArg (.ofNat 64 (read 10 0 (ds.map Fin.val)))
  | star v => intArg v

inductive Conv
  | d
  | i
  | u
  | x
  | X
  deriving DecidableEq

def Conv.char : Conv → UInt8
  | d => 'd'.toUInt8
  | i => 'i'.toUInt8
  | u => 'u'.toUInt8
  | x => 'x'.toUInt8
  | X => 'X'.toUInt8

/-- `%`, flags, width, precision, `l`, conversion. A width starts with a digit other than 0, which would be a flag. -/
structure Conversion where
  flags : List Flag
  width : Option Count
  prec : Option Count
  long : Bool
  conv : Conv
  width_digits : ∀ ds, width = some (.digits ds) → ∃ d ds', ds = d :: ds' ∧ d ≠ 0

namespace Conversion

theorem no_width (ds : List (Fin 10)) (h : none = some (Count.digits ds)) : ∃ d ds', ds = d :: ds' ∧ d ≠ 0 :=
  (Option.some_ne_none _ h.symm).elim

variable (c : Conversion)

def precText : List UInt8 := c.prec.elim [] fun p => '.'.toUInt8 :: p.text

def longText : List UInt8 := if c.long then ['l'.toUInt8] else []

def text : List UInt8 :=
  '%'.toUInt8 :: (c.flags.map Flag.char ++ (c.width.elim [] Count.text ++ (c.precText ++ (c.longText ++ [c.conv.char]))))

def args (v : BitVec 64) : List (BitVec 64) := c.width.elim [] Count.args ++ (c.prec.elim [] Count.args ++ [v])

/-- The flags at the end of the conversion. -/
def fmtFlags : FmtFlags where
  in_format := true
  longflag := c.long
  sharpflag := .sharp ∈ c.flags
  zeroflag := .zero ∈ c.flags
  spaceflag := .space ∈ c.flags
  sign := .plus ∈ c.flags
  width := c.width.elim 0 Count.int
  prec := c.prec.elim (-1) Count.int

end Conversion

end Syntax

section Scan
variable {mem : Nat → Option UInt8} {rest : List UInt8} {fl : FmtFlags} {args : List (BitVec 64)}

/-- A character at which `strtol` in base 10 stops, and which it does not skip. -/
def plain (c : UInt8) : Bool :=
  !isspace c && c != '-'.toUInt8 && c != '+'.toUInt8 && c != '*'.toUInt8 && (digitOf c).all fun d => 10 ≤ d

/-- The text behind a number. -/
def Plain (rest : List UInt8) : Prop := ∀ c ∈ rest.head?, plain c = true

theorem decimal_spec : ∀ d < 10, '0'.toUInt8 ≤ decimal d ∧ decimal d ≤ '9'.toUInt8 ∧ digitOf (decimal d) = some d ∧
    isspace (decimal d) = false ∧ decimal d ≠ '-'.toUInt8 ∧ decimal d ≠ '+'.toUInt8 ∧ decimal d ≠ '*'.toUInt8 ∧ decimal d ≠ 0 := by
  decide

/-- The digits of a number are accumulated, modulo `2 ^ 64`. -/
theorem parseDigits_read {b : Nat} {chr : Nat → UInt8} (hchr : ∀ d < b, digitOf (chr d) = some d) {ds : List Nat}
    (hds : ∀ d ∈ ds, d < b) (acc : Nat) :
    parseDigits b (.ofNat 64 acc) (ds.map chr ++ rest) = parseDigits b (.ofNat 64 (read b acc ds)) rest := by
  induction ds generalizing acc with
  | nil => rfl
  | cons d ds ih =>
      have hd := hds d List.mem_cons_self
      rw [List.map_cons, List.cons_append, parseDigits, hchr d hd]
      dsimp only
      rw [if_neg (Nat.not_le_of_lt hd), ← BitVec.ofNat_mul, ← BitVec.ofNat_add, ih (fun e he => hds e (List.mem_cons_of_mem _ he))]
      rfl

theorem parseDigits_stop {ret : BitVec 64} (h : Plain rest) : parseDigits 10 ret rest = (ret, rest) := by
  cases rest with
  | nil => rfl
  | cons c cs =>
      have hc := h c rfl
      rw [plain, Bool.and_eq_true] at hc
      rw [parseDigits]
      cases hd : digitOf c with
      | none => rfl
      | some d =>
          have hle := hc.2
          rw [hd, Option.all_some, decide_eq_true_eq] at hle
          exact if_pos hle

/-- A number without blanks, sign and prefix. -/
theorem parseLong_head {b : Nat} (hb : b ≠ 0) {cs : List UInt8}
    (h : ∀ c ∈ cs.head?, isspace c = false ∧ c ≠ '-'.toUInt8 ∧ c ≠ '+'.toUInt8) : parseLong b cs = parseDigits b 0 cs := by
  have hdrop : cs.dropWhile isspace = cs := by
    cases cs with
    | nil => rfl
    | cons c cs => rw [List.dropWhile_cons, (h c rfl).1, if_neg Bool.false_ne_true]
  have hsign : parseSign cs = (false, cs) := by
    cases cs with
    | nil => rfl
    | cons c cs => rw [parseSign, if_neg (h c rfl).2.1, if_neg (h c rfl).2.2]
  have hbase : parseBase b cs = (b, cs) := if_neg hb
  rw [parseLong, hdrop, hsign]
  dsimp only
  rw [hbase]
  rfl

/-- `strtol` reads the digits of a width or a precision. -/
theorem parseLong_decimal {ds : List Nat} (hds : ∀ d ∈ ds, d < 10) (h : Plain rest) :
    parseLong 10 (ds.map decimal ++ rest) = (.ofNat 64 (read 10 0 ds), rest) := by
  have hhead : ∀ c ∈ (ds.map decimal ++ rest).head?, isspace c = false ∧ c ≠ '-'.toUInt8 ∧ c ≠ '+'.toUInt8 := by
    intro c hc
    cases ds with
    | nil =>
        have hplain := h c hc
        simp only [plain, Bool.and_eq_true, Bool.not_eq_true', bne_iff_ne] at hplain
        exact ⟨hplain.1.1.1.1, hplain.1.1.1.2, hplain.1.1.2⟩
    | cons d ds =>
        obtain ⟨-, -, -, hspace, hneg, hpos, -⟩ := decimal_spec d (hds d List.mem_cons_self)
        obtain rfl : decimal d = c := Option.some.inj hc
        exact ⟨hspace, hneg, hpos⟩
  rw [parseLong_head (by decide) hhead]
  exact (parseDigits_read (fun d hd => (decimal_spec d hd).2.2.1) hds 0).trans (parseDigits_stop h)

theorem piece_flag (hin : fl.in_format = true) (f : Flag) : piece mem rest fl f.char args = passed rest (f.set fl) args := by
  rw [piece, if_pos hin]
  cases f <;> rfl

theorem meaning_flags (hin : fl.in_format = true) (fs : List Flag) :
    meaning mem ⟨fs.map Flag.char ++ rest, fl, args⟩ = meaning mem ⟨rest, { fl with
      sharpflag := fl.sharpflag || .sharp ∈ fs
      zeroflag := fl.zeroflag || .zero ∈ fs
      spaceflag := fl.spaceflag || .space ∈ fs
      sign := fl.sign || .plus ∈ fs }, args⟩ := by
  induction fs generalizing fl with
  | nil => simp only [List.map_nil, List.nil_append, List.not_mem_nil, decide_false, Bool.or_false]
  | cons f fs ih =>
      have hset : (f.set fl).in_format = true := by cases f <;> exact hin
      rw [List.map_cons, List.cons_append, meaning_passed (piece_flag hin f), ih hset]
      cases f <;> simp only [Flag.set, List.mem_cons, Bool.or_true, Bool.true_or, true_or, decide_true, reduceCtorEq, false_or]

theorem width_digit : ∀ d < 10, d ≠ 0 → ('1'.toUInt8 ≤ decimal d ∧ decimal d ≤ '9'.toUInt8) ∧ decimal d ≠ '#'.toUInt8 ∧
    decimal d ≠ '0'.toUInt8 ∧ decimal d ≠ '+'.toUInt8 ∧ decimal d ≠ ' '.toUInt8 ∧ decimal d ≠ '*'.toUInt8 ∧
    ¬ (decimal d = 'l'.toUInt8 ∨ decimal d = 'z'.toUInt8 ∨ decimal d = 't'.toUInt8 ∨ decimal d = 'j'.toUInt8) := by decide

theorem piece_width (hin : fl.in_format = true) {d : Nat} (hd : d < 10) (hne : d ≠ 0) : piece mem rest fl (decimal d) args =
    passed (parseLong 10 (decimal d :: rest)).2 { fl with width := intArg (parseLong 10 (decimal d :: rest)).1 } args := by
  obtain ⟨hdigit, hsharp, hzero, hplus, hspace, hstar, hlong⟩ := width_digit d hd hne
  rw [piece, if_pos hin, if_neg hsharp, if_neg hzero, if_neg hlong, if_neg hplus, if_neg hspace, if_neg hstar, if_pos hdigit]

theorem digits_lt (ds : List (Fin 10)) : ∀ e ∈ ds.map Fin.val, e < 10 := fun e he => by
  obtain ⟨d, -, rfl⟩ := List.mem_map.mp he
  exact d.isLt

/-- A width is read. -/
theorem meaning_width (hin : fl.in_format = true) (hplain : Plain rest) {width : Option Count}
    (hdigits : ∀ ds, width = some (.digits ds) → ∃ d ds', ds = d :: ds' ∧ d ≠ 0) :
    meaning mem ⟨width.elim [] Count.text ++ rest, fl, width.elim [] Count.args ++ args⟩ =
      meaning mem ⟨rest, { fl with width := width.elim fl.width Count.int }, args⟩ := by
  match width with
  | none => rfl
  | some (.star v) =>
      refine meaning_passed ?_
      rw [piece, if_pos hin]
      rfl
  | some (.digits ds) =>
      obtain ⟨d, ds', rfl, hd⟩ := hdigits ds rfl
      have hread := parseLong_decimal (digits_lt (d :: ds')) hplain
      have hpiece := @piece_width mem ((ds'.map Fin.val).map decimal ++ rest) fl args hin d d.isLt fun h => hd (Fin.ext h)
      rw [List.map_cons, List.map_cons, List.cons_append] at hread
      rw [hread] at hpiece
      exact meaning_passed hpiece

theorem precision_digits {cs : List UInt8} (h : ∀ c ∈ cs.head?, c ≠ '*'.toUInt8) :
    precision fl args cs = passed (parseLong 10 cs).2 { fl with prec := intArg (parseLong 10 cs).1 } args := by
  cases cs with
  | nil => rfl
  | cons c cs => rw [precision, if_neg (h c rfl)]

/-- A precision is read. -/
theorem meaning_prec (hin : fl.in_format = true) (hplain : Plain rest) {prec : Option Count} :
    meaning mem ⟨(prec.elim [] fun p => '.'.toUInt8 :: p.text) ++ rest, fl, prec.elim [] Count.args ++ args⟩ =
      meaning mem ⟨rest, { fl with prec := prec.elim fl.prec Count.int }, args⟩ := by
  have hdot : ∀ cs args, piece mem cs fl '.'.toUInt8 args = precision fl args cs := fun cs args => by
    rw [piece, if_pos hin]
    rfl
  rcases prec with _ | ds | v
  · rfl
  · have hread := parseLong_decimal (digits_lt ds) hplain
    have hhead : ∀ c ∈ ((ds.map Fin.val).map decimal ++ rest).head?, c ≠ '*'.toUInt8 := by
      intro c hc
      cases ds with
      | nil =>
          have hc := hplain c hc
          simp only [plain, Bool.and_eq_true, bne_iff_ne] at hc
          exact hc.1.2
      | cons d ds =>
          obtain rfl : decimal d = c := Option.some.inj hc
          exact (decimal_spec d d.isLt).2.2.2.2.2.2.1
    have hprec := @precision_digits fl args _ hhead
    rw [hread] at hprec
    exact meaning_passed ((hdot _ _).trans hprec)
  · exact meaning_passed (hdot _ _)

theorem meaning_long (hin : fl.in_format = true) (long : Bool) :
    meaning mem ⟨(if long then ['l'.toUInt8] else []) ++ rest, fl, args⟩ =
      meaning mem ⟨rest, { fl with longflag := fl.longflag || long }, args⟩ := by
  cases long with
  | false => simp only [Bool.false_eq_true, if_false, List.nil_append, Bool.or_false]
  | true =>
      refine meaning_passed ?_
      rw [piece, if_pos hin, Bool.or_true]
      rfl

theorem meaning_conv (hin : fl.in_format = true) (conv : Conv) (v : BitVec 64) :
    meaning mem ⟨[conv.char], fl, [v]⟩ = ((argText mem conv.char fl v).1, true) := by
  have hpiece : piece mem [] fl conv.char [v] = ((argText mem conv.char fl v).1, some ⟨[], { fl with in_format := false }, []⟩) := by
    rw [piece, if_pos hin]
    cases conv <;> rfl
  rw [meaning_cons hpiece, meaning_nil, List.append_nil]

namespace Conversion

theorem plain_conv (c : Conversion) : Plain [c.conv.char] := by
  intro ch hch
  obtain rfl : c.conv.char = ch := Option.some.inj hch
  cases c.conv <;> decide

theorem plain_long (c : Conversion) : Plain (c.longText ++ [c.conv.char]) := by
  cases hl : c.long with
  | false =>
      rw [longText, hl]
      exact c.plain_conv
  | true =>
      rw [longText, hl]
      intro ch hch
      obtain rfl : 'l'.toUInt8 = ch := Option.some.inj hch
      decide

theorem plain_prec (c : Conversion) : Plain (c.precText ++ (c.longText ++ [c.conv.char])) := by
  cases hp : c.prec with
  | none =>
      rw [precText, hp]
      exact c.plain_long
  | some p =>
      rw [precText, hp]
      intro ch hch
      obtain rfl : '.'.toUInt8 = ch := Option.some.inj hch
      decide

/-- The text of a conversion is the text of its argument under the flags that it names. -/
theorem meaning_text (c : Conversion) (v : BitVec 64) :
    meaning mem ⟨c.text, {}, c.args v⟩ = ((argText mem c.conv.char c.fmtFlags v).1, true) := by
  have hpercent : piece mem (c.flags.map Flag.char ++ (c.width.elim [] Count.text ++ (c.precText ++ (c.longText ++ [c.conv.char])))) {}
      '%'.toUInt8 (c.args v) = passed _ { in_format := true, prec := -1 } (c.args v) := rfl
  rw [text, meaning_passed hpercent, meaning_flags rfl, args, meaning_width rfl c.plain_prec c.width_digits, precText,
    meaning_prec rfl c.plain_long, longText, meaning_long rfl, meaning_conv rfl]
  simp only [Bool.false_or, fmtFlags]

theorem count_noNul (p : Count) : 0 ∉ p.text := by
  cases p with
  | star v => exact (by decide : (0 : UInt8) ∉ ['*'.toUInt8])
  | digits ds =>
      rw [Count.text, List.mem_map]
      rintro ⟨d, hd, hzero⟩
      exact (decimal_spec d (digits_lt ds d hd)).2.2.2.2.2.2.2 hzero

theorem noNul (c : Conversion) : 0 ∉ c.text := by
  have hflags : 0 ∉ c.flags.map Flag.char := by
    rw [List.mem_map]
    rintro ⟨f, -, hzero⟩
    revert hzero
    cases f <;> decide
  have hwidth : 0 ∉ c.width.elim [] Count.text := by
    cases c.width with
    | none => exact List.not_mem_nil
    | some p => exact count_noNul p
  have hprec : 0 ∉ c.precText := by
    rw [precText]
    cases c.prec with
    | none => exact List.not_mem_nil
    | some p => exact List.not_mem_cons_of_ne_of_not_mem (by decide) (count_noNul p)
  have hlong : 0 ∉ c.longText := by
    rw [longText]
    cases c.long <;> decide
  have hconv : 0 ∉ [c.conv.char] := by cases c.conv <;> decide
  simp only [text, List.mem_cons, List.mem_append, hflags, hwidth, hprec, hlong, false_or]
  rintro (h | h)
  · exact absurd h (by decide)
  · exact hconv (List.mem_cons.mpr h)

def format (c : Conversion) : CString := ⟨c.text, c.noNul⟩

theorem formatText_eq (c : Conversion) (v : BitVec 64) :
    formatText mem c.format (c.args v) = ((argText mem c.conv.char c.fmtFlags v).1, true) := c.meaning_text v

/-- `vprintfmt` prints the text of the conversion, and returns. -/
theorem vprintfmt_text (c : Conversion) (v : BitVec 64) :
    Ends (vprintfmt mem c.format) ⟨c.args v, []⟩ (fun _ t => printed t.trace = (argText mem c.conv.char c.fmtFlags v).1)
      fun _ _ => False := by
  refine (vprintfmt_spec mem c.format (c.args v)).mono (fun _ _ h => ?_) fun _ _ h => ?_
  · rw [h.2.1, c.formatText_eq]
  · rw [c.formatText_eq] at h
    exact Bool.noConfusion h.2.1

end Conversion

end Scan

end ZjuOs.Printk
