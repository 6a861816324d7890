import Aesd.Driver.Device

/-!
# Recognising a seek request

The worker recognises a seek request by `sscanf` with the format `AESDCHAR_IOCSEEKTO:%u,%u`. The
literal parts have to match byte for byte. A `%u` skips white space, takes an optional sign and
the longest run of decimal digits, which may not be empty; the number is converted as an
`unsigned long`, saturating and negated modulo the word, and stored modulo `2 ^ 32`. What follows
the last conversion is not looked at.
-/

namespace Aesd.Server

open Driver

def ascii (chars : List Char) : List UInt8 := chars.map fun char ↦ char.toNat.toUInt8

def seekKeyword : List UInt8 :=
  ascii ['A', 'E', 'S', 'D', 'C', 'H', 'A', 'R', '_',
    'I', 'O', 'C', 'S', 'E', 'E', 'K', 'T', 'O', ':']

def isSpace (byte : UInt8) : Bool := byte == 32 || (9 ≤ byte && byte ≤ 13)

def isDigit (byte : UInt8) : Bool := 48 ≤ byte && byte ≤ 57

/-- The number a run of digits denotes, the most significant digit first. -/
def decimal (digits : List UInt8) : ℕ :=
  digits.foldl (fun value digit ↦ 10 * value + (digit.toNat - 48)) 0

/-- `strtoul` on a run of digits with or without a minus sign. -/
def strtoul (negative : Bool) (digits : List UInt8) : ℕ :=
  if 2 ^ 64 ≤ decimal digits then 2 ^ 64 - 1
  else if negative then (2 ^ 64 - decimal digits) % 2 ^ 64
  else decimal digits

/-- Match a literal part of the format: what follows it. -/
def scanLiteral (literal text : List UInt8) : Option (List UInt8) :=
  if text.take literal.length = literal then some (text.drop literal.length) else none

/-- The optional sign of a conversion: whether it is a minus sign, and what follows it. -/
def scanSign : List UInt8 → Bool × List UInt8
  | 43 :: text => (false, text)
  | 45 :: text => (true, text)
  | text => (false, text)

/-- Convert `%u`: the stored number, and what follows it. -/
def scanUnsigned (text : List UInt8) : Option (UInt32 × List UInt8) :=
  let (negative, text) := scanSign (text.dropWhile isSpace)
  let digits := text.takeWhile isDigit
  if digits = [] then none
  else some (UInt32.ofNat (strtoul negative digits), text.dropWhile isDigit)

/-- The pair `sscanf` stores when it converts both numbers, and `none` when it does not return
2. -/
def sscanfSeekto (text : List UInt8) : Option AesdSeekto :=
  (scanLiteral seekKeyword text).bind fun text ↦
    (scanUnsigned text).bind fun (writeCmd, text) ↦
      (scanLiteral (ascii [',']) text).bind fun text ↦
        (scanUnsigned text).map fun (writeCmdOffset, _) ↦ ⟨writeCmd, writeCmdOffset⟩

example : sscanfSeekto (seekKeyword ++ ascii ['1', '2', ',', ' ', '-', '1', '\n']) =
    some ⟨12, 4294967295⟩ := by decide

end Aesd.Server
