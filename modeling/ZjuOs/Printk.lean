import Mathlib.Algebra.Group.Int.Defs
import ZjuOs.Exec

/-!
The formatter of `lib/printk.c`, which `user/printf.c` repeats. Its output is the sequence of calls of `putch`;
a trace also keeps what `%s` loads and what `%n` stores. `char` is unsigned, and `int` wraps around at 32 bits.
-/
namespace ZjuOs.Printk

def text (t : String) : List UInt8 := t.toList.map Char.toUInt8

/-- The bytes of a string before its NUL. -/
structure CString where
  bytes : List UInt8
  noNul : 0 ∉ bytes

/-- Why a call does not return: it reads a byte beyond the NUL of a string, a loop does not end, the argument
list is too short, or `%s` gets a pointer to memory that cannot be read up to a NUL. -/
inductive Stop
  | overrun
  | endless
  | missing
  | unmapped
  deriving DecidableEq

inductive Action
  | putch (c : UInt8)
  | load (p : Nat)
  | store (p : Nat) (long : Bool) (v : Int)
  deriving DecidableEq

structure Printer where
  args : List (BitVec 64)
  trace : List Action
  deriving DecidableEq

abbrev P : Type → Type := EStateM Stop Printer

def act (a : Action) : P Unit := modify fun s => { s with trace := s.trace ++ [a] }

def putch (c : UInt8) : P Unit := act (.putch c)

def vaArg : P (BitVec 64) := do
  match (← get).args with
  | [] => throw .missing
  | v :: vs =>
      modify fun s => { s with args := vs }
      return v

/-- The value of an expression of type `int`. -/
def int32 (v : Int) : Int := (v + 2 ^ 31) % 2 ^ 32 - 2 ^ 31

def intArg (v : BitVec 64) : Int := (v.setWidth 32).toInt

/-- `*p` in a string. -/
def CString.read (s : CString) (p : Nat) : P UInt8 :=
  if h : p < s.bytes.length then return s.bytes[p]
  else if p = s.bytes.length then return 0
  else throw .overrun

/-- `*p` in memory. -/
def load (mem : Nat → Option UInt8) (p : Nat) : P UInt8 := do
  if p < 2 ^ 64 then
    match mem p with
    | none => throw .unmapped
    | some c =>
        act (.load p)
        return c
  else throw .unmapped

section Strtol
variable (s : CString)

def isspace (c : UInt8) : Bool := c = ' '.toUInt8 || ('\t'.toUInt8 ≤ c && c ≤ '\r'.toUInt8)

def skipSpaces : Nat → Nat → P Nat
  | 0, _ => throw .endless
  | n + 1, p => do
      let c ← s.read p
      if isspace c then skipSpaces n (p + 1) else return p

def digitOf (c : UInt8) : Option Nat :=
  if '0'.toUInt8 ≤ c ∧ c ≤ '9'.toUInt8 then some (c.toNat - '0'.toNat)
  else if 'a'.toUInt8 ≤ c ∧ c ≤ 'z'.toUInt8 then some (c.toNat - ('a'.toNat - 10))
  else if 'A'.toUInt8 ≤ c ∧ c ≤ 'Z'.toUInt8 then some (c.toNat - ('A'.toNat - 10))
  else none

def readDigits (base : Nat) : Nat → BitVec 64 → Nat → P (BitVec 64 × Nat)
  | 0, _, _ => throw .endless
  | n + 1, ret, p => do
      let c ← s.read p
      match digitOf c with
      | none => return (ret, p)
      | some digit =>
          if base ≤ digit then return (ret, p)
          else readDigits base n (ret * BitVec.ofNat 64 base + BitVec.ofNat 64 digit) (p + 1)

/-- The sign in front of a number. -/
def readSign (p : Nat) : P (Bool × Nat) := do
  let c ← s.read p
  if c = '-'.toUInt8 then return (true, p + 1)
  else if c = '+'.toUInt8 then return (false, p + 1)
  else return (false, p)

/-- The base that base 0 stands for. -/
def readBase (base p : Nat) : P (Nat × Nat) := do
  if base = 0 then
    let c ← s.read p
    if c = '0'.toUInt8 then
      let x ← s.read (p + 1)
      if x = 'x'.toUInt8 ∨ x = 'X'.toUInt8 then return (16, p + 2)
      else return (8, p + 1)
    else return (10, p)
  else return (base, p)

/-- The number at `nptr`, and the end pointer. -/
def strtol (nptr base : Nat) : P (BitVec 64 × Nat) := do
  let p ← skipSpaces s (s.bytes.length + 1) nptr
  let (neg, p) ← readSign s p
  let (base, p) ← readBase s base p
  let (ret, p) ← readDigits s base (s.bytes.length + 1) 0 p
  return (if neg then -ret else ret, p)

end Strtol

structure FmtFlags where
  in_format : Bool := false
  longflag : Bool := false
  sharpflag : Bool := false
  zeroflag : Bool := false
  spaceflag : Bool := false
  sign : Bool := false
  width : Int := 0
  prec : Int := 0
  deriving DecidableEq

section Numbers

/-- `putch(c); ++written;` for each of the characters. -/
def putAll : List UInt8 → Int → P Int
  | [], written => return written
  | c :: cs, written => do
      putch c
      putAll cs (int32 (written + 1))

/-- `for (int i = n; i > 0; i--) { putch(c); ++written; }` -/
def pad (c : UInt8) (n : Int) (written : Int) : P Int := putAll (.replicate n.toNat c) written

/-- `while (*p) putch(*p++);` -/
def putWhile (rd : Nat → P UInt8) : Nat → Nat → P Nat
  | 0, _ => throw .endless
  | n + 1, p => do
      let c ← rd p
      if c = 0 then return p
      else
        putch c
        putWhile rd n (p + 1)

def putString (s : CString) : P Int := do
  let p ← putWhile s.read (s.bytes.length + 1) 0
  return int32 p

def nullText : CString := ⟨text "(null)", by decide⟩

def putsWoNl (mem : Nat → Option UInt8) (s : Nat) : P Int := do
  if s = 0 then putString nullText
  else
    let p ← putWhile (load mem) (2 ^ 64 - s + 1) s
    return int32 (p - s : Int)

def longMin : CString := ⟨text "-9223372036854775808", by decide⟩

/-- `buf[decdigits++] = num % 10 + '0'; num /= 10;` until `num` is 0, in a buffer of the given size. -/
def decDigits : Nat → Nat → List UInt8
  | 0, _ => []
  | n + 1, num => (UInt8.ofNat (num % 10) + '0'.toUInt8) :: if num / 10 = 0 then [] else decDigits n (num / 10)

/-- `flags` is the caller's record, whose changed `prec` is not read again: the next `%` clears it. -/
def printDecInt (num : BitVec 64) (isSigned : Bool) (flags : FmtFlags) : P Int := do
  if isSigned ∧ num = 0x8000000000000000 then putString longMin
  else if flags.prec = 0 ∧ num = 0 then return 0
  else
    let neg := isSigned && num.slt 0
    let num := if neg then -num else num
    let hasSignChar := isSigned && (neg || flags.sign || flags.spaceflag)
    let buf := decDigits 20 num.toNat
    let prec := if flags.prec = -1 ∧ flags.zeroflag then flags.width else flags.prec
    let written ← pad ' '.toUInt8 (int32 (int32 (flags.width - max ↑buf.length prec) - hasSignChar.toNat)) 0
    let signChar := if neg then '-'.toUInt8 else if flags.sign then '+'.toUInt8 else ' '.toUInt8
    let written ← putAll (if hasSignChar then [signChar] else []) written
    let written ← pad '0'.toUInt8 (int32 (prec - hasSignChar.toNat) - buf.length) written
    putAll buf.reverse written

def lowerxdigits : List UInt8 := text "0123456789abcdef"

def upperxdigits : List UInt8 := text "0123456789ABCDEF"

/-- `buf[hexdigits++] = xdigits[num & 0xf]; num >>= 4;` until `num` is 0, in a buffer of the given size. -/
def hexDigits (xdigits : List UInt8) : Nat → Nat → List UInt8
  | 0, _ => []
  | n + 1, num => xdigits.getD (num &&& 0xf) 0 :: if num >>> 4 = 0 then [] else hexDigits xdigits n (num >>> 4)

/-- The conversions `x`, `X` and `p`, once the argument has been fetched. -/
def printHexInt (num : BitVec 64) (c : UInt8) (flags : FmtFlags) (written : Int) : P Int := do
  if flags.prec = 0 ∧ num = 0 ∧ c ≠ 'p'.toUInt8 then return written
  else
    let hasPrefix := c = 'p'.toUInt8 || (flags.sharpflag && num != 0)
    let xdigits := if c = 'X'.toUInt8 then upperxdigits else lowerxdigits
    let buf := hexDigits xdigits 16 num.toNat
    let prec := if flags.prec = -1 ∧ flags.zeroflag then int32 (flags.width - 2 * hasPrefix.toNat) else flags.prec
    let written ← pad ' '.toUInt8 (int32 (int32 (flags.width - 2 * hasPrefix.toNat) - max ↑buf.length prec)) written
    let written ← putAll (if hasPrefix then ['0'.toUInt8, if c = 'X'.toUInt8 then 'X'.toUInt8 else 'x'.toUInt8] else []) written
    let written ← pad '0'.toUInt8 (prec - buf.length) written
    putAll buf.reverse written

end Numbers

section Scanner
variable (mem : Nat → Option UInt8) (s : CString)

/-- The local variables of `vprintfmt`. -/
structure Locals where
  fmt : Nat
  flags : FmtFlags
  written : Int
  deriving DecidableEq

/-- A conversion is over. -/
def Locals.close (x : Locals) (written : Int) : Locals :=
  { x with written, flags := { x.flags with in_format := false } }

/-- The precision behind a dot at `fmt`. -/
def readPrec (x : Locals) : P Locals := do
  let c ← s.read (x.fmt + 1)
  if c = '*'.toUInt8 then
    let v ← vaArg
    return { x with fmt := x.fmt + 1, flags := { x.flags with prec := intArg v } }
  else
    let (v, p) ← strtol s (x.fmt + 1) 10
    return { x with fmt := p - 1, flags := { x.flags with prec := intArg v } }

/-- A character that ends a conversion. -/
def convert (c : UInt8) (x : Locals) : P Locals := do
  if c = 'x'.toUInt8 ∨ c = 'X'.toUInt8 ∨ c = 'p'.toUInt8 then
    let v ← vaArg
    let isLong := c = 'p'.toUInt8 || x.flags.longflag
    let num := if isLong then v else (v.setWidth 32).setWidth 64
    let written ← printHexInt num c x.flags x.written
    return x.close written
  else if c = 'd'.toUInt8 ∨ c = 'i'.toUInt8 ∨ c = 'u'.toUInt8 then
    let v ← vaArg
    let num := if x.flags.longflag then v else (v.setWidth 32).signExtend 64
    let n ← printDecInt num (c ≠ 'u'.toUInt8) x.flags
    return x.close (int32 (x.written + n))
  else if c = 'n'.toUInt8 then
    let n ← vaArg
    act (.store n.toNat x.flags.longflag x.written)
    return x.close x.written
  else if c = 's'.toUInt8 then
    let v ← vaArg
    let n ← putsWoNl mem v.toNat
    return x.close (int32 (x.written + n))
  else if c = 'c'.toUInt8 then
    let v ← vaArg
    putch (.ofBitVec (v.setWidth 8))
    return x.close (int32 (x.written + 1))
  else
    -- `%`, and a character that means nothing
    putch c
    return x.close (int32 (x.written + 1))

/-- The body of the loop, at the character `c`. -/
def scan (c : UInt8) (x : Locals) : P Locals := do
  if x.flags.in_format then
    if c = '#'.toUInt8 then return { x with flags := { x.flags with sharpflag := true } }
    else if c = '0'.toUInt8 then return { x with flags := { x.flags with zeroflag := true } }
    else if c = 'l'.toUInt8 ∨ c = 'z'.toUInt8 ∨ c = 't'.toUInt8 ∨ c = 'j'.toUInt8 then
      return { x with flags := { x.flags with longflag := true } }
    else if c = '+'.toUInt8 then return { x with flags := { x.flags with sign := true } }
    else if c = ' '.toUInt8 then return { x with flags := { x.flags with spaceflag := true } }
    else if c = '*'.toUInt8 then
      let v ← vaArg
      return { x with flags := { x.flags with width := intArg v } }
    else if '1'.toUInt8 ≤ c ∧ c ≤ '9'.toUInt8 then
      let (v, p) ← strtol s x.fmt 10
      return { x with fmt := p - 1, flags := { x.flags with width := intArg v } }
    else if c = '.'.toUInt8 then readPrec s x
    else convert mem c x
  else if c = '%'.toUInt8 then return { x with flags := { in_format := true, prec := -1 } }
  else
    putch c
    return { x with written := int32 (x.written + 1) }

def scanLoop : Nat → Locals → P Int
  | 0, _ => throw .endless
  | n + 1, x => do
      let c ← s.read x.fmt
      if c = 0 then return x.written
      else
        let x ← scan mem s c x
        scanLoop n { x with fmt := x.fmt + 1 }

def vprintfmt : P Int := scanLoop mem s (s.bytes.length + 1) { fmt := 0, flags := {}, written := 0 }

def printk (args : List (BitVec 64)) : P Int := do
  modify fun p => { p with args }
  vprintfmt mem s

end Scanner

end ZjuOs.Printk
