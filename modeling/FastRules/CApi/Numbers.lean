import FastRules.Foundations.FloatText
import FastRules.Rule.Numbers
import FastRules.Rule.Basic

/-!
# Reading numbers

`strtol` and `strtod` of the C library, in the C locale: what they read from the start of a text,
and where they stop. A text in which there is nothing to read is left where it was.
-/

namespace FastRules

/-- The nearest number of type `long`. -/
def clampLong (n : Int) : Int :=
  max (-2 ^ 63) (min (2 ^ 63 - 1) n)

/-- `strtol` to the base 10: the number, and the text from `endptr` on. -/
def strtol (s : List Char) : Int × List Char :=
  let (negative, body) := readSign (s.dropWhile isSpace)
  match body.takeWhile Char.isDigit with
  | [] => (0, s)
  | digits =>
    (clampLong (if negative then -(decimalValue digits : Int) else decimalValue digits),
      body.dropWhile Char.isDigit)

/-! ### `strtod` -/

/-- A word in small letters, read in any case. -/
def readWord (word s : List Char) : Option (List Char) :=
  if (s.take word.length).map Char.toLower = word then some (s.drop word.length) else none

def isHexDigit (c : Char) : Bool :=
  c.isDigit || ('a' ≤ c.toLower && c.toLower ≤ 'f')

def hexDigitValue (c : Char) : ℕ :=
  if c.isDigit then c.toNat - '0'.toNat else c.toLower.toNat - 'a'.toNat + 10

def hexValue (digits : List Char) : ℕ :=
  digits.foldl (fun n c ↦ 16 * n + hexDigitValue c) 0

/-- Digits with at most one point among them: those before it, those after it, and the rest. -/
def readMantissa (isDigit : Char → Bool) (s : List Char) :
    Option (List Char × List Char × List Char) :=
  let whole := s.takeWhile isDigit
  let (fraction, rest) :=
    match s.dropWhile isDigit with
    | '.' :: tail => (tail.takeWhile isDigit, tail.dropWhile isDigit)
    | tail => ([], tail)
  if whole ++ fraction = [] then none else some (whole, fraction, rest)

/-- An exponent after its letter. Without digits the letter is not read. -/
def readExponent (letter : Char) (s : List Char) : Int × List Char :=
  match s with
  | [] => (0, s)
  | c :: tail =>
    let (negative, body) := readSign tail
    let digits := body.takeWhile Char.isDigit
    if c.toLower = letter ∧ digits ≠ [] then
      (if negative then -(decimalValue digits : Int) else decimalValue digits,
        body.dropWhile Char.isDigit)
    else (0, s)

/-- The nearest `double` to a number times a power. -/
def scaledDouble (negative : Bool) (m base : ℕ) (exponent : Int) : BitVec 64 :=
  BitVec.ofNat 64
    (if 0 ≤ exponent then
      FloatText.Format.binary64.encode negative (m * base ^ exponent.toNat) 1
    else FloatText.Format.binary64.encode negative m (base ^ (-exponent).toNat))

/-- A decimal number. -/
def readDecimal (negative : Bool) (s : List Char) : Option (BitVec 64 × List Char) :=
  (readMantissa Char.isDigit s).map fun (whole, fraction, tail) ↦
    let (exponent, rest) := readExponent 'e' tail
    (scaledDouble negative (decimalValue (whole ++ fraction)) 10 (exponent - fraction.length), rest)

/-- A hexadecimal number after its `0x`. -/
def readHexadecimal (negative : Bool) (s : List Char) : Option (BitVec 64 × List Char) :=
  (readMantissa isHexDigit s).map fun (whole, fraction, tail) ↦
    let (exponent, rest) := readExponent 'p' tail
    (scaledDouble negative (hexValue (whole ++ fraction)) 2 (exponent - 4 * fraction.length), rest)

/-- The characters in brackets after `nan`, if there are any. -/
def readNanSuffix (s : List Char) : List Char :=
  match s with
  | '(' :: tail =>
    match tail.dropWhile fun c ↦ c.isAlphanum || c = '_' with
    | ')' :: rest => rest
    | _ => s
  | _ => s

/-- An infinity or a NaN. -/
def readSpecial (negative : Bool) (s : List Char) : Option (BitVec 64 × List Char) :=
  let format := FloatText.Format.binary64
  let infinity := BitVec.ofNat 64 (format.signBit negative + format.infinityWord)
  match readWord "infinity".toList s, readWord "inf".toList s, readWord "nan".toList s with
  | some rest, _, _ => some (infinity, rest)
  | none, some rest, _ => some (infinity, rest)
  | none, none, some rest =>
    -- a quiet NaN
    some (BitVec.ofNat 64 (format.signBit negative + format.infinityWord + 2 ^ 51),
      readNanSuffix rest)
  | none, none, none => none

/-- A number without its sign. -/
def readUnsigned (negative : Bool) (s : List Char) : Option (BitVec 64 × List Char) :=
  match readSpecial negative s with
  | some read => some read
  | none =>
    match (readWord "0x".toList s).bind (readHexadecimal negative) with
    | some read => some read
    | none => readDecimal negative s

/-- `strtod`: the number, and the text from `endptr` on. -/
def strtod (s : List Char) : BitVec 64 × List Char :=
  let (negative, body) := readSign (s.dropWhile isSpace)
  (readUnsigned negative body).getD (0, s)

example : strtod "-2.5e1;".toList = (0xC039000000000000, [';']) := by
  decide

/-- The text is a number as a whole. -/
def isNumber (s : List Char) : Bool :=
  s ≠ [] && ((strtol s).2 = [] || (strtod s).2 = [])

end FastRules
