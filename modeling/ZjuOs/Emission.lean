import ZjuOs.Printk

/-!
What the routines under `vprintfmt` print: each is one sequence of calls of `putch`, followed by its count.
-/
namespace ZjuOs.Printk

section Writer

/-- The actions of a call are appended to the trace at once. -/
def emit (as : List Action) : P Unit := modify fun s => { s with trace := s.trace ++ as }

def puts (cs : List UInt8) : P Unit := emit (cs.map .putch)

variable {α : Type} {as bs : List Action} {f : Unit → P α}

theorem act_eq (a : Action) : act a = emit [a] := rfl

theorem putch_eq (c : UInt8) : putch c = puts [c] := rfl

theorem emit_nil : emit [] = pure () := by
  funext s
  simp only [emit, List.append_nil]
  rfl

theorem puts_nil : puts [] = pure () := emit_nil

theorem emit_emit_bind : (emit as >>= fun _ => emit bs >>= f) = emit (as ++ bs) >>= f := by
  funext s
  simp only [emit, bind, EStateM.bind, ← List.append_assoc]
  rfl

theorem puts_puts_bind {cs ds : List UInt8} : (puts cs >>= fun _ => puts ds >>= f) = puts (cs ++ ds) >>= f := by
  rw [puts, puts, emit_emit_bind, puts, List.map_append]

end Writer

section Counted
variable {w : Int} {cs : List UInt8}

theorem int32_add (v w : Int) : int32 (int32 v + w) = int32 (v + w) := by
  simp only [int32]
  omega

theorem int32_of_lt {v : Int} (h : -2 ^ 31 ≤ v) (h' : v < 2 ^ 31) : int32 v = v := by
  simp only [int32]
  omega

theorem putAll_eq : putAll cs (int32 w) = puts cs >>= fun _ => pure (int32 (w + cs.length)) := by
  induction cs generalizing w with
  | nil => rw [putAll, puts_nil, pure_bind, List.length_nil, Int.natCast_zero, Int.add_zero]
  | cons c cs ih =>
      rw [putAll, int32_add, ih, putch_eq, puts_puts_bind, List.singleton_append, List.length_cons]
      rw [Int.natCast_add, Int.natCast_one, Int.add_assoc, Int.add_comm 1]

theorem pad_eq {c : UInt8} {n : Int} :
    pad c n (int32 w) = puts (.replicate n.toNat c) >>= fun _ => pure (int32 (w + n.toNat)) := by
  rw [pad, putAll_eq, List.length_replicate]

end Counted

section Texts

/-- The text of a number: blanks, a sign or a prefix, zeros, digits. -/
def field (spaces zeros : Int) (lead digits : List UInt8) : List UInt8 :=
  .replicate spaces.toNat ' '.toUInt8 ++ lead ++ .replicate zeros.toNat '0'.toUInt8 ++ digits

/-- The sign in front of a decimal number. -/
def signText (neg : Bool) (flags : FmtFlags) : List UInt8 :=
  if neg then ['-'.toUInt8] else if flags.sign then ['+'.toUInt8] else if flags.spaceflag then [' '.toUInt8] else []

def decText (num : BitVec 64) (isSigned : Bool) (flags : FmtFlags) : List UInt8 :=
  if isSigned ∧ num = 0x8000000000000000 then longMin.bytes
  else if flags.prec = 0 ∧ num = 0 then []
  else
    let neg := isSigned && num.slt 0
    let lead := if isSigned then signText neg flags else []
    let digits := (decDigits 20 (if neg then -num else num).toNat).reverse
    let prec := if flags.prec = -1 ∧ flags.zeroflag then flags.width else flags.prec
    field (int32 (int32 (flags.width - max ↑digits.length prec) - lead.length))
      (int32 (prec - lead.length) - digits.length) lead digits

def hexText (num : BitVec 64) (c : UInt8) (flags : FmtFlags) : List UInt8 :=
  if flags.prec = 0 ∧ num = 0 ∧ c ≠ 'p'.toUInt8 then []
  else
    let lead :=
      if c = 'p'.toUInt8 || (flags.sharpflag && num != 0) then ['0'.toUInt8, if c = 'X'.toUInt8 then 'X'.toUInt8 else 'x'.toUInt8]
      else []
    let digits := (hexDigits (if c = 'X'.toUInt8 then upperxdigits else lowerxdigits) 16 num.toNat).reverse
    let prec := if flags.prec = -1 ∧ flags.zeroflag then int32 (flags.width - lead.length) else flags.prec
    field (int32 (int32 (flags.width - lead.length) - max ↑digits.length prec)) (prec - digits.length) lead digits

variable {w : Int} {flags : FmtFlags} {num : BitVec 64} {isSigned : Bool}

/-- The characters of a number are counted as they are printed. -/
theorem field_eq {spaces zeros : Int} {lead buf : List UInt8} :
    (do let v ← pad ' '.toUInt8 spaces (int32 w)
        let v ← putAll lead v
        let v ← pad '0'.toUInt8 zeros v
        putAll buf.reverse v) =
      puts (field spaces zeros lead buf.reverse) >>= fun _ => pure (int32 (w + (field spaces zeros lead buf.reverse).length)) := by
  simp only [pad_eq, putAll_eq, bind_assoc, pure_bind, puts_puts_bind, field, List.length_append, List.length_replicate,
    Int.natCast_add, Int.add_assoc, List.append_assoc]

theorem putString_go {s : CString} {pre cs : List UInt8} (h : s.bytes = pre ++ cs) {n : Nat} (hn : cs.length < n) :
    putWhile s.read n pre.length = puts cs >>= fun _ => pure s.bytes.length := by
  induction cs generalizing pre n with
  | nil =>
      obtain ⟨n, rfl⟩ := Nat.exists_eq_succ_of_ne_zero (Nat.ne_of_gt (Nat.zero_lt_of_lt hn))
      rw [List.append_nil] at h
      rw [putWhile, CString.read, dif_neg (by rw [h]; exact Nat.lt_irrefl _), if_pos (by rw [h]), pure_bind, if_pos rfl,
        puts_nil, pure_bind, h]
  | cons c cs ih =>
      obtain ⟨n, rfl⟩ := Nat.exists_eq_succ_of_ne_zero (Nat.ne_of_gt (Nat.zero_lt_of_lt hn))
      have hlt : pre.length < s.bytes.length := by
        rw [h, List.length_append, List.length_cons]
        omega
      have hget : s.bytes[pre.length] = c := by simp only [h, List.getElem_append_right (Nat.le_refl _), Nat.sub_self, List.getElem_cons_zero]
      have hc : c ≠ 0 := by
        rintro rfl
        exact s.noNul (h ▸ List.mem_append_right _ List.mem_cons_self)
      have hrest := @ih (pre ++ [c]) (by rw [h, List.append_assoc, List.singleton_append]) n (Nat.lt_of_succ_lt_succ hn)
      rw [List.length_append, List.length_singleton] at hrest
      rw [putWhile, CString.read, dif_pos hlt, pure_bind, hget, if_neg hc, hrest, putch_eq, puts_puts_bind, List.singleton_append]

theorem putString_eq (s : CString) : putString s = puts s.bytes >>= fun _ => pure (int32 s.bytes.length) := by
  have h := @putString_go s [] s.bytes rfl _ (Nat.lt_succ_self _)
  rw [List.length_nil] at h
  rw [putString, h, bind_assoc]
  simp only [pure_bind]

theorem printDecInt_eq :
    printDecInt num isSigned flags =
      puts (decText num isSigned flags) >>= fun _ => pure (int32 (decText num isSigned flags).length) := by
  rw [printDecInt, decText]
  by_cases hmin : isSigned ∧ num = 0x8000000000000000
  · rw [if_pos hmin, if_pos hmin, putString_eq]
  · rw [if_neg hmin, if_neg hmin]
    by_cases hzero : flags.prec = 0 ∧ num = 0
    · rw [if_pos hzero, if_pos hzero, puts_nil]
      rfl
    · rw [if_neg hzero, if_neg hzero]
      obtain ⟨neg, hneg⟩ : ∃ neg, neg = (isSigned && num.slt 0) := ⟨_, rfl⟩
      have hlead : (if isSigned then signText neg flags else []).length = (isSigned && (neg || flags.sign || flags.spaceflag)).toNat := by
        rw [hneg, signText]
        cases isSigned <;> cases num.slt 0 <;> cases flags.sign <;> cases flags.spaceflag <;> rfl
      have hsign : (if isSigned && (neg || flags.sign || flags.spaceflag) then
          [if neg then '-'.toUInt8 else if flags.sign then '+'.toUInt8 else ' '.toUInt8] else []) =
          if isSigned then signText neg flags else [] := by
        rw [hneg, signText]
        cases isSigned <;> cases num.slt 0 <;> cases flags.sign <;> cases flags.spaceflag <;> rfl
      dsimp only
      rw [← hneg, hsign, ← hlead]
      refine (field_eq (w := 0)).trans ?_
      simp only [Int.zero_add, List.length_reverse]

theorem printHexInt_eq {c : UInt8} :
    printHexInt num c flags (int32 w) = puts (hexText num c flags) >>= fun _ => pure (int32 (w + (hexText num c flags).length)) := by
  rw [printHexInt, hexText]
  by_cases hzero : flags.prec = 0 ∧ num = 0 ∧ c ≠ 'p'.toUInt8
  · rw [if_pos hzero, if_pos hzero, puts_nil, pure_bind, List.length_nil, Int.natCast_zero, Int.add_zero]
  · rw [if_neg hzero, if_neg hzero]
    obtain ⟨b, hb⟩ : ∃ b, b = (decide (c = 'p'.toUInt8) || (flags.sharpflag && num != 0)) := ⟨_, rfl⟩
    dsimp only
    rw [← hb]
    cases b with
    | true =>
        simp only [if_true, Bool.toNat_true, List.length_cons, List.length_nil, List.length_reverse]
        exact field_eq
    | false =>
        simp only [Bool.false_eq_true, if_false, Bool.toNat_false, List.length_nil, List.length_reverse]
        exact field_eq

end Texts

end ZjuOs.Printk
