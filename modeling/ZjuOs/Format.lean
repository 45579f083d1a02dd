import ZjuOs.Scanner

/-!
What a format means: the text that it prints with its arguments, read off the list of its characters. The loop of
`vprintfmt` prints this text, and counts it.
-/
namespace ZjuOs.Printk
open Exec

section Meaning
variable (mem : Nat → Option UInt8)

/-- The bytes from an address up to a NUL, and whether there is one. -/
def textAt : Nat → Nat → List UInt8 × Bool
  | 0, _ => ([], false)
  | n + 1, p =>
      match mem p with
      | none => ([], false)
      | some c => if c = 0 then ([], true) else (c :: (textAt n (p + 1)).1, (textAt n (p + 1)).2)

def stringText (p : Nat) : List UInt8 × Bool := if p = 0 then (nullText.bytes, true) else textAt mem (2 ^ 64 - p) p

/-- The text of a conversion with its argument, and whether it can be printed to its end. -/
def argText (c : UInt8) (flags : FmtFlags) (v : BitVec 64) : List UInt8 × Bool :=
  if c = 'x'.toUInt8 ∨ c = 'X'.toUInt8 ∨ c = 'p'.toUInt8 then
    (hexText (if c = 'p'.toUInt8 || flags.longflag then v else (v.setWidth 32).setWidth 64) c flags, true)
  else if c = 'd'.toUInt8 ∨ c = 'i'.toUInt8 ∨ c = 'u'.toUInt8 then
    (decText (if flags.longflag then v else (v.setWidth 32).signExtend 64) (c ≠ 'u'.toUInt8) flags, true)
  else if c = 'n'.toUInt8 then ([], true)
  else if c = 's'.toUInt8 then stringText mem v.toNat
  else ([.ofBitVec (v.setWidth 8)], true)

def takesArg (c : UInt8) : Bool :=
  c ∈ ['x', 'X', 'p', 'd', 'i', 'u', 'n', 's', 'c'].map Char.toUInt8

/-- Where a scan stands: the rest of the format, the flags, and the arguments that are left. -/
structure Stage where
  rest : List UInt8
  flags : FmtFlags
  args : List (BitVec 64)

variable (cs : List UInt8) (flags : FmtFlags)

/-- A flag or a length has been read. -/
def passed (flags : FmtFlags) (args : List (BitVec 64)) : List UInt8 × Option Stage := ([], some ⟨cs, flags, args⟩)

/-- `*` takes its number from the arguments. -/
def starred (set : Int → FmtFlags) : List (BitVec 64) → List UInt8 × Option Stage
  | [] => ([], none)
  | v :: vs => passed cs (set (intArg v)) vs

/-- The precision behind a dot. -/
def precision (flags : FmtFlags) (args : List (BitVec 64)) : List UInt8 → List UInt8 × Option Stage
  | [] => passed [] { flags with prec := 0 } args
  | c :: cs =>
      if c = '*'.toUInt8 then starred cs (fun v => { flags with prec := v }) args
      else passed (parseLong 10 (c :: cs)).2 { flags with prec := intArg (parseLong 10 (c :: cs)).1 } args

/-- A conversion prints its text and ends. -/
def converted (c : UInt8) : List (BitVec 64) → List UInt8 × Option Stage
  | [] => if takesArg c then ([], none) else ([c], some ⟨cs, { flags with in_format := false }, []⟩)
  | v :: vs =>
      if takesArg c then
        ((argText mem c flags v).1, if (argText mem c flags v).2 then some ⟨cs, { flags with in_format := false }, vs⟩ else none)
      else ([c], some ⟨cs, { flags with in_format := false }, v :: vs⟩)

/-- What one character of a format prints, with what it takes from the text behind it; no stage is next when the
arguments or a string run out. -/
def piece (c : UInt8) (args : List (BitVec 64)) : List UInt8 × Option Stage :=
  if flags.in_format then
    if c = '#'.toUInt8 then passed cs { flags with sharpflag := true } args
    else if c = '0'.toUInt8 then passed cs { flags with zeroflag := true } args
    else if c = 'l'.toUInt8 ∨ c = 'z'.toUInt8 ∨ c = 't'.toUInt8 ∨ c = 'j'.toUInt8 then
      passed cs { flags with longflag := true } args
    else if c = '+'.toUInt8 then passed cs { flags with sign := true } args
    else if c = ' '.toUInt8 then passed cs { flags with spaceflag := true } args
    else if c = '*'.toUInt8 then starred cs (fun v => { flags with width := v }) args
    else if '1'.toUInt8 ≤ c ∧ c ≤ '9'.toUInt8 then
      passed (parseLong 10 (c :: cs)).2 { flags with width := intArg (parseLong 10 (c :: cs)).1 } args
    else if c = '.'.toUInt8 then precision flags args cs
    else converted mem cs flags c args
  else if c = '%'.toUInt8 then passed cs { in_format := true, prec := -1 } args
  else ([c], some ⟨cs, flags, args⟩)

/-- The text that a format prints, and whether it is printed to its end. -/
def formatted : Nat → Stage → List UInt8 × Bool
  | 0, _ => ([], false)
  | _ + 1, ⟨[], _, _⟩ => ([], true)
  | n + 1, ⟨c :: cs, flags, args⟩ =>
      match piece mem cs flags c args with
      | (text, none) => (text, false)
      | (text, some x) => (text ++ (formatted n x).1, (formatted n x).2)

def formatText (s : CString) (args : List (BitVec 64)) : List UInt8 × Bool :=
  formatted mem (s.bytes.length + 1) ⟨s.bytes, {}, args⟩

end Meaning

section Strings
variable {mem : Nat → Option UInt8} {n p : Nat}

def stringActs : Nat → List UInt8 → List Action
  | _, [] => []
  | p, c :: cs => .load p :: .putch c :: stringActs (p + 1) cs

/-- A string in memory is printed up to its NUL, and the NUL is read. -/
theorem putWhile_load (h : p + n = 2 ^ 64) :
    putWhile (load mem) (n + 1) p = (do
      emit (stringActs p (textAt mem n p).1)
      if (textAt mem n p).2 then
        emit [.load (p + (textAt mem n p).1.length)]
        return p + (textAt mem n p).1.length
      else throw .unmapped) := by
  induction n generalizing p with
  | zero =>
      rw [putWhile, load, if_neg (by omega), textAt, stringActs, emit_nil, pure_bind, if_neg Bool.false_ne_true]
      rfl
  | succ n ih =>
      rw [putWhile, load, if_pos (by omega), textAt]
      cases mem p with
      | none =>
          dsimp only
          rw [stringActs, emit_nil, pure_bind, if_neg Bool.false_ne_true]
          rfl
      | some c =>
          dsimp only
          by_cases hc : c = 0
          · simp only [if_pos hc, stringActs, emit_nil, pure_bind, act_eq, bind_assoc, if_true, List.length_nil, Nat.add_zero]
          · have hlen : p + ((textAt mem n (p + 1)).1.length + 1) = p + 1 + (textAt mem n (p + 1)).1.length := by omega
            simp only [if_neg hc, pure_bind, act_eq, bind_assoc, putch_eq, puts, ih (by omega : p + 1 + n = 2 ^ 64), stringActs,
              emit_emit_bind, List.map_cons, List.map_nil, List.cons_append, List.nil_append, List.length_cons, hlen]

end Strings

section Trace

/-- The characters that were passed to `putch`. -/
def printed (tr : List Action) : List UInt8 := tr.filterMap fun a => match a with | .putch c => some c | _ => none

/-- Each value that `%n` stored is the number of characters that were printed before it. -/
def Counted (tr : List Action) : Prop :=
  ∀ k p long v, tr[k]? = some (.store p long v) → v = int32 (printed (tr.take k)).length

variable {tr as : List Action} {w : Int} {cs : List UInt8} {p : Nat}

theorem printed_append : printed (tr ++ as) = printed tr ++ printed as := List.filterMap_append

theorem printed_puts : printed (cs.map .putch) = cs := by
  rw [printed, List.filterMap_map]
  exact List.filterMap_some

theorem printed_string : printed (stringActs p cs) = cs := by
  induction cs generalizing p with
  | nil => rfl
  | cons c cs ih => exact congrArg (c :: ·) ih

theorem Counted.append (h : Counted tr) (has : ∀ p long v, .store p long v ∉ as) : Counted (tr ++ as) := by
  intro k p long v hk
  by_cases hlt : k < tr.length
  · rw [List.getElem?_append_left hlt] at hk
    rw [List.take_append_of_le_length (Nat.le_of_lt hlt)]
    exact h k p long v hk
  · rw [List.getElem?_append_right (Nat.le_of_not_lt hlt)] at hk
    exact absurd (List.mem_of_getElem? hk) (has p long v)

theorem Counted.store (h : Counted tr) {long : Bool} : Counted (tr ++ [.store p long (int32 (printed tr).length)]) := by
  intro k q l v hk
  by_cases hlt : k < tr.length
  · rw [List.getElem?_append_left hlt] at hk
    rw [List.take_append_of_le_length (Nat.le_of_lt hlt)]
    exact h k q l v hk
  · rw [List.getElem?_append_right (Nat.le_of_not_lt hlt), List.getElem?_singleton] at hk
    split at hk
    · cases hk
      rw [show k = tr.length by omega, List.take_left]
    · cases hk

theorem store_notMem_puts {long : Bool} {v : Int} : .store p long v ∉ cs.map Action.putch := by
  rw [List.mem_map]
  rintro ⟨c, -, hc⟩
  cases hc

theorem store_notMem_string {q : Nat} {long : Bool} {v : Int} : .store q long v ∉ stringActs p cs := by
  induction cs generalizing p with
  | nil => exact List.not_mem_nil
  | cons c cs ih =>
      rw [stringActs]
      rintro (_ | ⟨_, _ | ⟨_, hmem⟩⟩)
      exact ih hmem

theorem Counted.grow (h : Counted tr) (hw : w = int32 (printed tr).length)
    (has : (∀ p long v, .store p long v ∉ as) ∨ ∃ p long, as = [.store p long w]) : Counted (tr ++ as) := by
  rcases has with hno | ⟨p, long, rfl⟩
  · exact h.append hno
  · rw [hw]
    exact h.store

end Trace

section Steps
variable {mem : Nat → Option UInt8} {s : CString} {c : UInt8} {cs : List UInt8} {x : Locals} {tr : List Action}
  {args : List (BitVec 64)} {α : Type} {Q : α → Printer → Prop} {E : Stop → Printer → Prop}

theorem ends_emit {as : List Action} {f : Unit → P α} :
    Ends (emit as >>= f) ⟨args, tr⟩ Q E ↔ Ends (f ()) ⟨args, tr ++ as⟩ Q E := by
  rw [emit, ends_bind, ends_modify]

theorem ends_puts {f : Unit → P α} :
    Ends (puts cs >>= f) ⟨args, tr⟩ Q E ↔ Ends (f ()) ⟨args, tr ++ cs.map .putch⟩ Q E := ends_emit

/-- An argument is taken, or there is none. -/
theorem ends_vaArg {f : BitVec 64 → P α} :
    Ends (vaArg >>= f) ⟨args, tr⟩ Q E ↔
      match args with
      | [] => E .missing ⟨[], tr⟩
      | v :: vs => Ends (f v) ⟨vs, tr⟩ Q E := by
  rw [vaArg, bind_assoc, ends_bind, ends_get]
  cases args with
  | nil => rw [ends_bind, ends_throw]
  | cons v vs => rw [bind_assoc, ends_bind, ends_modify, pure_bind]

/-- What an iteration of the loop does: the text of the piece is printed and counted, a value that is stored is the
count so far, and the cursor moves forward to the rest. -/
structure Scanned (s : CString) (cs : List UInt8) (w : Int) (tr : List Action) (result : List UInt8 × Option Stage) (x : Locals) (t : Printer) : Prop where
  trace : ∃ as, t.trace = tr ++ as ∧ printed as = result.1 ∧ x.written = int32 (w + result.1.length) ∧
    ((∀ p long v, .store p long v ∉ as) ∨ ∃ p long, as = [.store p long w])
  next : ∃ y, result.2 = some y ∧ y.rest <:+ cs ∧ x.fmt + 1 = s.pos y.rest ∧ x.flags = y.flags ∧ t.args = y.args

/-- An iteration that does not end: the arguments or a string run out. -/
structure Stopped (tr : List Action) (result : List UInt8 × Option Stage) (e : Stop) (t : Printer) : Prop where
  stop : e = .missing ∨ e = .unmapped
  last : result.2 = none
  trace : ∃ as, t.trace = tr ++ as ∧ printed as = result.1 ∧ ∀ p long v, .store p long v ∉ as

theorem Scanned.passed {fmt : Nat} {flags : FmtFlags} {w : Int} {rest : List UInt8} (hw : int32 w = w) (hrest : rest <:+ cs)
    (hfmt : fmt + 1 = s.pos rest) : Scanned s cs w tr (passed rest flags args) ⟨fmt, flags, w⟩ ⟨args, tr⟩ where
  trace := ⟨[], (List.append_nil _).symm, rfl, (hw.symm.trans (congrArg int32 (Int.add_zero _).symm)), .inl fun _ _ _ => List.not_mem_nil⟩
  next := ⟨_, rfl, hrest, hfmt, rfl, rfl⟩

/-- A conversion has printed its text. -/
theorem Scanned.close {as : List Action} {text : List UInt8} (has : printed as = text)
    (hno : (∀ p long v, .store p long v ∉ as) ∨ ∃ p long, as = [.store p long x.written])
    (hfmt : x.fmt + 1 = s.pos cs) :
    Scanned s cs x.written tr (text, some ⟨cs, { x.flags with in_format := false }, args⟩) (x.close (int32 (x.written + text.length)))
      ⟨args, tr ++ as⟩ where
  trace := ⟨as, rfl, has, rfl, hno⟩
  next := ⟨_, rfl, List.suffix_refl _, hfmt, rfl, rfl⟩

theorem Scanned.puts {text : List UInt8} (hfmt : x.fmt + 1 = s.pos cs) :
    Scanned s cs x.written tr (text, some ⟨cs, { x.flags with in_format := false }, args⟩) (x.close (int32 (x.written + text.length)))
      ⟨args, tr ++ text.map .putch⟩ := .close printed_puts (.inl fun _ _ _ => store_notMem_puts) hfmt

theorem Stopped.missing : Stopped tr ([], none) .missing ⟨[], tr⟩ :=
  ⟨.inl rfl, rfl, [], (List.append_nil _).symm, rfl, fun _ _ _ => List.not_mem_nil⟩

theorem ends_starred (set : Int → FmtFlags) {fmt : Nat} {w : Int} {ds : List UInt8} (hw : int32 w = w) (hds : ds <:+ cs)
    (hfmt : fmt + 1 = s.pos ds) :
    Ends (do let v ← vaArg; return Locals.mk fmt (set (intArg v)) w) ⟨args, tr⟩ (fun x t => Scanned s cs w tr (starred ds set args) x t)
      fun e t => Stopped tr (starred ds set args) e t := by
  rw [ends_vaArg]
  cases args with
  | nil => exact .missing
  | cons v vs => exact ends_pure.mpr (.passed hw hds hfmt)

theorem readPrec_spec (h : c :: cs <:+ s.bytes) (hx : x.fmt = s.pos (c :: cs)) (hw : int32 x.written = x.written) :
    Ends (readPrec s x) ⟨args, tr⟩ (fun y t => Scanned s cs x.written tr (precision x.flags args cs) y t)
      fun e t => Stopped tr (precision x.flags args cs) e t := by
  have htail := CString.suffix_tail h
  have hstep : x.fmt + 1 = s.pos cs := by rw [hx, CString.pos_succ h]
  -- the end pointer of `strtol` is behind the dot
  have hback : s.pos (parseLong 10 cs).2 - 1 + 1 = s.pos (parseLong 10 cs).2 := by
    have hpos : s.pos (c :: cs) < s.pos (parseLong 10 cs).2 := CString.pos_lt h (Nat.lt_succ_of_le parseLong_suffix.length_le)
    omega
  rw [readPrec, hstep]
  cases cs with
  | nil =>
      rw [CString.read_nil, pure_bind, if_neg (by decide), strtol_eq htail, pure_bind]
      exact ends_pure.mpr (.passed hw (List.suffix_refl _) hback)
  | cons d ds =>
      rw [CString.read_cons htail, pure_bind, precision]
      by_cases hd : d = '*'.toUInt8
      · rw [if_pos hd, if_pos hd]
        exact ends_starred (fun v => { x.flags with prec := v }) hw (List.suffix_cons _ _) (CString.pos_succ htail)
      · rw [if_neg hd, if_neg hd, strtol_eq htail, pure_bind]
        exact ends_pure.mpr (.passed hw parseLong_suffix hback)

theorem takesArg_eq : takesArg c = true ↔ (c = 'x'.toUInt8 ∨ c = 'X'.toUInt8 ∨ c = 'p'.toUInt8) ∨
    (c = 'd'.toUInt8 ∨ c = 'i'.toUInt8 ∨ c = 'u'.toUInt8) ∨ c = 'n'.toUInt8 ∨ c = 's'.toUInt8 ∨ c = 'c'.toUInt8 := by
  simp only [takesArg, List.map_cons, List.map_nil, List.mem_cons, List.not_mem_nil, or_false, decide_eq_true_eq, or_assoc]

/-- The conversions that print the text of their argument at once. -/
theorem convert_puts {v : BitVec 64} {vs : List (BitVec 64)} (hfmt : x.fmt + 1 = s.pos cs) {text : List UInt8} (harg : argText mem c x.flags v = (text, true)) (ht : takesArg c = true) :
    Ends (puts text >>= fun _ => pure (x.close (int32 (x.written + text.length)))) ⟨vs, tr⟩
      (fun y t => Scanned s cs x.written tr (converted mem cs x.flags c (v :: vs)) y t)
      fun e t => Stopped tr (converted mem cs x.flags c (v :: vs)) e t := by
  rw [ends_puts, ends_pure, converted, if_pos ht, harg, if_pos rfl]
  exact .puts hfmt

theorem putsWoNl_spec {v : BitVec 64} {vs : List (BitVec 64)} (hfmt : x.fmt + 1 = s.pos cs) :
    Ends (putsWoNl mem v.toNat >>= fun n => pure (x.close (int32 (x.written + n)))) ⟨vs, tr⟩
      (fun y t => Scanned s cs x.written tr (converted mem cs x.flags 's'.toUInt8 (v :: vs)) y t)
      fun e t => Stopped tr (converted mem cs x.flags 's'.toUInt8 (v :: vs)) e t := by
  have harg : argText mem 's'.toUInt8 x.flags v = stringText mem v.toNat := by
    rw [argText, if_neg (by decide), if_neg (by decide), if_neg (by decide), if_pos rfl]
  have hcount : ∀ n : Int, int32 (x.written + int32 n) = int32 (x.written + n) := fun n => by
    rw [Int.add_comm, int32_add, Int.add_comm]
  rw [converted, if_pos (by decide), harg, putsWoNl, stringText]
  by_cases hnull : v.toNat = 0
  · rw [if_pos hnull, if_pos hnull, putString_eq, bind_assoc]
    simp only [pure_bind, hcount]
    rw [ends_puts, ends_pure, if_pos trivial]
    exact .puts hfmt
  · have hend : v.toNat + (2 ^ 64 - v.toNat) = 2 ^ 64 := Nat.add_sub_cancel' (Nat.le_of_lt v.isLt)
    rw [if_neg hnull, if_neg hnull, putWhile_load hend]
    obtain ⟨text, ok⟩ := textAt mem (2 ^ 64 - v.toNat) v.toNat
    simp only [bind_assoc]
    rw [ends_emit]
    cases ok with
    | true =>
        have hno : ∀ p long v', .store p long v' ∉ stringActs v.toNat text ++ [.load (v.toNat + text.length)] := fun _ _ _ hmem =>
          (List.mem_append.mp hmem).elim store_notMem_string fun hmem => by cases List.mem_singleton.mp hmem
        have htext : printed (stringActs v.toNat text ++ [.load (v.toNat + text.length)]) = text := by
          rw [printed_append, printed_string]
          exact List.append_nil _
        have hlen : ((v.toNat + text.length : Nat) : Int) - v.toNat = text.length := by omega
        simp only [if_true, bind_assoc, pure_bind, hlen, hcount]
        rw [ends_emit, ends_pure, List.append_assoc]
        exact .close htext (.inl hno) hfmt
    | false =>
        simp only [Bool.false_eq_true, if_false]
        rw [ends_bind, ends_throw]
        exact ⟨.inr rfl, rfl, _, rfl, printed_string, fun _ _ _ => store_notMem_string⟩

theorem convert_spec (hw : int32 x.written = x.written) (hfmt : x.fmt + 1 = s.pos cs) :
    Ends (convert mem c x) ⟨args, tr⟩ (fun y t => Scanned s cs x.written tr (converted mem cs x.flags c args) y t)
      fun e t => Stopped tr (converted mem cs x.flags c args) e t := by
  have hcount : ∀ n : Int, int32 (x.written + int32 n) = int32 (x.written + n) := fun n => by
    rw [Int.add_comm, int32_add, Int.add_comm]
  have hmissing : takesArg c = true → args = [] → Stopped tr (converted mem cs x.flags c args) .missing ⟨[], tr⟩ := by
    rintro ht rfl
    rw [converted, if_pos ht]
    exact .missing
  rw [convert]
  by_cases hhex : c = 'x'.toUInt8 ∨ c = 'X'.toUInt8 ∨ c = 'p'.toUInt8
  · have ht := takesArg_eq.mpr (.inl hhex)
    rw [if_pos hhex, ends_vaArg]
    cases args with
    | nil => exact hmissing ht rfl
    | cons v vs =>
        have hprint : ∀ num, printHexInt num c x.flags x.written =
            puts (hexText num c x.flags) >>= fun _ => pure (int32 (x.written + (hexText num c x.flags).length)) := fun num => by
          rw [← hw, printHexInt_eq, hw]
        dsimp only
        rw [hprint, bind_assoc]
        simp only [pure_bind]
        exact convert_puts hfmt (by rw [argText, if_pos hhex]) ht
  · rw [if_neg hhex]
    by_cases hdec : c = 'd'.toUInt8 ∨ c = 'i'.toUInt8 ∨ c = 'u'.toUInt8
    · have ht := takesArg_eq.mpr (.inr (.inl hdec))
      rw [if_pos hdec, ends_vaArg]
      cases args with
      | nil => exact hmissing ht rfl
      | cons v vs =>
          dsimp only
          rw [printDecInt_eq, bind_assoc]
          simp only [pure_bind, hcount]
          exact convert_puts hfmt (by rw [argText, if_neg hhex, if_pos hdec]) ht
    · rw [if_neg hdec]
      by_cases hn : c = 'n'.toUInt8
      · have ht := takesArg_eq.mpr (.inr (.inr (.inl hn)))
        rw [if_pos hn, ends_vaArg]
        cases args with
        | nil => exact hmissing ht rfl
        | cons v vs =>
            dsimp only
            rw [act_eq, ends_emit, ends_pure, converted, if_pos ht, argText, if_neg hhex, if_neg hdec, if_pos hn, if_pos rfl]
            have hsame : x.close x.written = x.close (int32 (x.written + ([] : List UInt8).length)) := by
              rw [List.length_nil, Int.natCast_zero, Int.add_zero, hw]
            rw [hsame]
            exact .close rfl (.inr ⟨_, _, rfl⟩) hfmt
      · rw [if_neg hn]
        by_cases hs : c = 's'.toUInt8
        · have ht := takesArg_eq.mpr (.inr (.inr (.inr (.inl hs))))
          rw [if_pos hs, ends_vaArg]
          cases args with
          | nil => exact hmissing ht rfl
          | cons v vs =>
              subst hs
              exact putsWoNl_spec hfmt
        · rw [if_neg hs]
          by_cases hch : c = 'c'.toUInt8
          · have ht := takesArg_eq.mpr (.inr (.inr (.inr (.inr hch))))
            rw [if_pos hch, ends_vaArg]
            cases args with
            | nil => exact hmissing ht rfl
            | cons v vs =>
                dsimp only
                rw [putch_eq]
                exact convert_puts hfmt (by rw [argText, if_neg hhex, if_neg hdec, if_neg hn, if_neg hs]) ht
          · have ht : ¬ takesArg c = true := by
              rw [takesArg_eq]
              rintro (h | h | h | h | h) <;> contradiction
            have hconv : converted mem cs x.flags c args = ([c], some ⟨cs, { x.flags with in_format := false }, args⟩) := by
              cases args <;> rw [converted, if_neg ht]
            rw [if_neg hch, putch_eq, ends_puts, ends_pure, hconv]
            exact .puts hfmt

theorem scan_spec (h : c :: cs <:+ s.bytes) (hx : x.fmt = s.pos (c :: cs)) (hw : int32 x.written = x.written) :
    Ends (scan mem s c x) ⟨args, tr⟩ (fun y t => Scanned s cs x.written tr (piece mem cs x.flags c args) y t)
      fun e t => Stopped tr (piece mem cs x.flags c args) e t := by
  have hfmt : x.fmt + 1 = s.pos cs := by rw [hx, CString.pos_succ h]
  rw [scan, piece]
  by_cases hin : x.flags.in_format = true
  · rw [if_pos hin, if_pos hin]
    by_cases hsharp : c = '#'.toUInt8
    · rw [if_pos hsharp, if_pos hsharp]
      exact ends_pure.mpr (.passed hw (List.suffix_refl _) hfmt)
    rw [if_neg hsharp, if_neg hsharp]
    by_cases hzero : c = '0'.toUInt8
    · rw [if_pos hzero, if_pos hzero]
      exact ends_pure.mpr (.passed hw (List.suffix_refl _) hfmt)
    rw [if_neg hzero, if_neg hzero]
    by_cases hlong : c = 'l'.toUInt8 ∨ c = 'z'.toUInt8 ∨ c = 't'.toUInt8 ∨ c = 'j'.toUInt8
    · rw [if_pos hlong, if_pos hlong]
      exact ends_pure.mpr (.passed hw (List.suffix_refl _) hfmt)
    rw [if_neg hlong, if_neg hlong]
    by_cases hplus : c = '+'.toUInt8
    · rw [if_pos hplus, if_pos hplus]
      exact ends_pure.mpr (.passed hw (List.suffix_refl _) hfmt)
    rw [if_neg hplus, if_neg hplus]
    by_cases hspace : c = ' '.toUInt8
    · rw [if_pos hspace, if_pos hspace]
      exact ends_pure.mpr (.passed hw (List.suffix_refl _) hfmt)
    rw [if_neg hspace, if_neg hspace]
    by_cases hstar : c = '*'.toUInt8
    · rw [if_pos hstar, if_pos hstar]
      exact ends_starred (fun v => { x.flags with width := v }) hw (List.suffix_refl _) hfmt
    rw [if_neg hstar, if_neg hstar]
    by_cases hdigit : '1'.toUInt8 ≤ c ∧ c ≤ '9'.toUInt8
    · have hrest := parseLong_digit cs hdigit.1 hdigit.2
      -- the end pointer of `strtol` is behind the first digit
      have hback : s.pos (parseLong 10 (c :: cs)).2 - 1 + 1 = s.pos (parseLong 10 (c :: cs)).2 := by
        have hpos : s.pos (c :: cs) < s.pos (parseLong 10 (c :: cs)).2 := CString.pos_lt h (Nat.lt_succ_of_le hrest.length_le)
        omega
      rw [if_pos hdigit, if_pos hdigit, hx, strtol_eq h, pure_bind]
      exact ends_pure.mpr (.passed hw hrest hback)
    rw [if_neg hdigit, if_neg hdigit]
    by_cases hdot : c = '.'.toUInt8
    · rw [if_pos hdot, if_pos hdot]
      exact readPrec_spec h hx hw
    rw [if_neg hdot, if_neg hdot]
    exact convert_spec hw hfmt
  · rw [if_neg hin, if_neg hin]
    by_cases hpercent : c = '%'.toUInt8
    · rw [if_pos hpercent, if_pos hpercent]
      exact ends_pure.mpr (.passed hw (List.suffix_refl _) hfmt)
    · rw [if_neg hpercent, if_neg hpercent, putch_eq, ends_puts, ends_pure]
      exact ⟨⟨_, rfl, printed_puts, rfl, .inl fun _ _ _ => store_notMem_puts⟩, _, rfl, List.suffix_refl _, hfmt, rfl, rfl⟩

end Steps

section Runs
variable {mem : Nat → Option UInt8} {s : CString} {x : Locals} {y : Stage} {tr : List Action} {args : List (BitVec 64)} {n : Nat}

theorem formatted_cons {c : UInt8} {cs : List UInt8} {flags : FmtFlags} :
    formatted mem (n + 1) ⟨c :: cs, flags, args⟩ =
      match piece mem cs flags c args with
      | (text, none) => (text, false)
      | (text, some x) => (text ++ (formatted mem n x).1, (formatted mem n x).2) := rfl

/-- The loop prints the text that the rest of the format means, and its count is right throughout. -/
theorem scanLoop_spec {rest : List UInt8} (hrest : rest <:+ s.bytes) (hfmt : x.fmt = s.pos rest)
    (hw : x.written = int32 (printed tr).length) (hc : Counted tr) (hn : rest.length < n) :
    Ends (scanLoop mem s n x) ⟨args, tr⟩
      (fun r t => (formatted mem n ⟨rest, x.flags, args⟩).2 = true ∧
        printed t.trace = printed tr ++ (formatted mem n ⟨rest, x.flags, args⟩).1 ∧
        r = int32 (printed t.trace).length ∧ Counted t.trace)
      fun e t => (e = .missing ∨ e = .unmapped) ∧ (formatted mem n ⟨rest, x.flags, args⟩).2 = false ∧
        printed t.trace = printed tr ++ (formatted mem n ⟨rest, x.flags, args⟩).1 ∧ Counted t.trace := by
  induction n generalizing x rest args tr with
  | zero => exact absurd hn (Nat.not_lt_zero _)
  | succ n ih =>
      cases rest with
      | nil =>
          rw [scanLoop, hfmt, CString.read_nil, pure_bind, if_pos rfl, ends_pure]
          exact ⟨rfl, (List.append_nil _).symm, hw, hc⟩
      | cons c cs =>
          have hint : int32 x.written = x.written := by
            have hadd := int32_add (printed tr).length 0
            rw [Int.add_zero, Int.add_zero] at hadd
            rw [hw, hadd]
          rw [scanLoop, hfmt, CString.read_cons hrest, pure_bind, if_neg (CString.ne_zero hrest), ends_bind, formatted_cons]
          obtain ⟨⟨text, next⟩, hpiece⟩ : ∃ r, r = piece mem cs x.flags c args := ⟨_, rfl⟩
          have hscan := @scan_spec mem s c cs x tr args hrest hfmt hint
          rw [← hpiece] at hscan ⊢
          refine hscan.mono ?_ ?_
          · rintro ⟨fmt, flags, w⟩ ⟨args', tr'⟩ ⟨⟨as, rfl, has, hw', hstore⟩, ⟨ds, flags', args''⟩, hz, hsuf, hfmt', rfl, rfl⟩
            cases hz
            have hlen : ds.length < n := Nat.lt_of_le_of_lt hsuf.length_le (Nat.lt_of_succ_lt_succ hn)
            have hcount : int32 (x.written + text.length) = int32 (printed (tr ++ as)).length := by
              rw [hw, int32_add, printed_append, has, List.length_append, Int.natCast_add]
            have hnext := @ih ⟨fmt + 1, flags, w⟩ (tr ++ as) args' ds (hsuf.trans (CString.suffix_tail hrest)) hfmt' (hw'.trans hcount)
              (hc.grow hw hstore) hlen
            rw [printed_append, has, List.append_assoc] at hnext
            exact hnext
          · rintro e ⟨args', tr'⟩ ⟨hstop, hlast, as, rfl, has, hno⟩
            cases hlast
            exact ⟨hstop, rfl, by rw [printed_append, has], hc.append hno⟩

/-- `vprintfmt` prints the text that its format means. -/
theorem vprintfmt_spec (mem : Nat → Option UInt8) (s : CString) (args : List (BitVec 64)) :
    Ends (vprintfmt mem s) ⟨args, []⟩
      (fun r t => (formatText mem s args).2 = true ∧ printed t.trace = (formatText mem s args).1 ∧
        r = int32 (printed t.trace).length ∧ Counted t.trace)
      fun e t => (e = .missing ∨ e = .unmapped) ∧ (formatText mem s args).2 = false ∧
        printed t.trace = (formatText mem s args).1 ∧ Counted t.trace := by
  have hnone : Counted [] := fun k p long v hk => by rw [List.getElem?_nil] at hk; cases hk
  exact scanLoop_spec (List.suffix_refl _) s.pos_bytes.symm rfl hnone (Nat.lt_succ_self _)

/-- The scanner never reads beyond the NUL of its format and always ends: a call that does not return has run out of
arguments, or prints a string that cannot be read. Each iteration moves the cursor forward, and not beyond the NUL. -/
theorem vprintfmt_ends (mem : Nat → Option UInt8) (s : CString) :
    (∀ args, Ends (vprintfmt mem s) ⟨args, []⟩ (fun _ _ => True) fun e _ => e = .missing ∨ e = .unmapped) ∧
      ∀ x c p, int32 x.written = x.written → s.bytes[x.fmt]? = some c →
        Ends (scan mem s c x) p (fun y _ => x.fmt < y.fmt + 1 ∧ y.fmt + 1 ≤ s.bytes.length)
          fun e _ => e = .missing ∨ e = .unmapped := by
  refine ⟨fun args => (vprintfmt_spec mem s args).mono (fun _ _ _ => trivial) fun _ _ h => h.1, ?_⟩
  rintro x c ⟨args, tr⟩ hw hc
  obtain ⟨hlt, hget⟩ := List.getElem?_eq_some_iff.mp hc
  have hdrop : s.bytes.drop x.fmt = c :: s.bytes.drop (x.fmt + 1) := by rw [List.drop_eq_getElem_cons hlt, hget]
  have hsuf : c :: s.bytes.drop (x.fmt + 1) <:+ s.bytes := hdrop ▸ List.drop_suffix _ _
  have hfmt : x.fmt = s.pos (c :: s.bytes.drop (x.fmt + 1)) := by
    rw [← hdrop, CString.pos, List.length_drop]
    omega
  refine (scan_spec hsuf hfmt hw).mono ?_ fun e _ h => h.stop
  rintro y _ ⟨-, z, -, hz, hnext, -, -⟩
  have hpos : s.pos (c :: s.bytes.drop (x.fmt + 1)) < s.pos z.rest := CString.pos_lt hsuf (Nat.lt_succ_of_le hz.length_le)
  rw [hnext]
  exact ⟨hfmt ▸ hpos, Nat.sub_le _ _⟩

/-- When fewer than `2 ^ 31` characters are printed, the value that `vprintfmt` returns is their number, and each value
that `%n` stores is the number of characters before it. -/
theorem vprintfmt_counts (mem : Nat → Option UInt8) (s : CString) (args : List (BitVec 64)) :
    Ends (vprintfmt mem s) ⟨args, []⟩
      (fun r t => (printed t.trace).length < 2 ^ 31 → r = (printed t.trace).length ∧
        ∀ k p long (v : Int), t.trace[k]? = some (.store p long v) → v = (printed (t.trace.take k)).length)
      fun _ t => (printed t.trace).length < 2 ^ 31 →
        ∀ k p long (v : Int), t.trace[k]? = some (.store p long v) → v = (printed (t.trace.take k)).length := by
  have hint : ∀ n : Nat, n < 2 ^ 31 → int32 n = n := fun n hn => int32_of_lt (by omega) (by omega)
  have hstores : ∀ tr, (printed tr).length < 2 ^ 31 → Counted tr →
      ∀ k p long (v : Int), tr[k]? = some (.store p long v) → v = (printed (tr.take k)).length := by
    intro tr hlt hc k p long v hk
    have hle : (printed (tr.take k)).length ≤ (printed tr).length := by
      conv_rhs => rw [← List.take_append_drop k tr, printed_append, List.length_append]
      exact Nat.le_add_right _ _
    rw [hc k p long v hk, hint _ (Nat.lt_of_le_of_lt hle hlt)]
  refine (vprintfmt_spec mem s args).mono ?_ ?_
  · rintro r t ⟨-, -, hr, hc⟩ hlt
    exact ⟨hr.trans (hint _ hlt), hstores _ hlt hc⟩
  · rintro e t ⟨-, -, -, hc⟩ hlt
    exact hstores _ hlt hc

end Runs

end ZjuOs.Printk
