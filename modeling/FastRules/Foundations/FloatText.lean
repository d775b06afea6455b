import Mathlib.Data.List.DropRight
import Mathlib.Data.Nat.Log
import Mathlib.Tactic.Ring

/-!
# Floating-point numbers as text

IEEE 754 words read as exact binary fractions, and their decimal text in the general format of
`printf`: a fixed number of significant digits, rounded to nearest with ties to even, without
trailing zeros, and with an exponent when the number is large or small.
-/

namespace FloatText

/-- A binary interchange format: the widths of the exponent and of the fraction. -/
structure Format where
  exponentBits : ℕ
  fractionBits : ℕ

/-- What a word encodes; a finite number is `mantissa * 2 ^ exponent`. -/
inductive Datum
  | finite (negative : Bool) (mantissa : ℕ) (exponent : Int)
  | infinity (negative : Bool)
  | nan (negative : Bool)
  deriving DecidableEq, Repr

namespace Format

def binary32 : Format := ⟨8, 23⟩

def binary64 : Format := ⟨11, 52⟩

variable (f : Format)

def width : ℕ := 1 + f.exponentBits + f.fractionBits

/-- Read a word of the format. -/
def decode (word : ℕ) : Datum :=
  let fraction := word % 2 ^ f.fractionBits
  let field := word / 2 ^ f.fractionBits % 2 ^ f.exponentBits
  let negative := word / 2 ^ (f.fractionBits + f.exponentBits) % 2 = 1
  -- The weight of the last bit of the fraction for the exponent field 1, and for subnormals.
  let least : Int := 2 - 2 ^ (f.exponentBits - 1) - f.fractionBits
  if field = 2 ^ f.exponentBits - 1 then
    if fraction = 0 then .infinity negative else .nan negative
  else if field = 0 then
    .finite negative fraction least
  else
    .finite negative (2 ^ f.fractionBits + fraction) (least + (field - 1))

end Format

/-! ### Decimal digits -/

/-- The integer nearest to a quotient, the even one of two equally near ones. -/
def roundQuotient (num den : ℕ) : ℕ :=
  let quotient := num / den
  let remainder := num % den
  if 2 * remainder < den ∨ (2 * remainder = den ∧ quotient % 2 = 0) then quotient
  else quotient + 1

/-- The exponent of the leading decimal digit of a positive quotient. -/
def decimalExponent (num den : ℕ) : Int :=
  if den ≤ num then Nat.log 10 (num / den) else -(Nat.clog 10 ((den + num - 1) / num) : ℕ)

/-- A positive quotient rounded to `precision` significant digits: the digits as one number, and the
exponent of the first of them. -/
def significand (precision num den : ℕ) : ℕ × Int :=
  let exponent := decimalExponent num den
  let shift : Int := precision - 1 - exponent
  let digits :=
    if 0 ≤ shift then roundQuotient (num * 10 ^ shift.toNat) den
    else roundQuotient num (den * 10 ^ (-shift).toNat)
  -- Rounding up can carry into a new digit.
  if digits = 10 ^ precision then (10 ^ (precision - 1), exponent + 1) else (digits, exponent)

/-- A fractional part without its trailing zeros, and without the point if nothing is left. -/
def fractionText (digits : List Char) : List Char :=
  match digits.rdropWhile (· = '0') with
  | [] => []
  | kept => '.' :: kept

/-- The sign and at least two digits of an exponent. -/
def exponentText (exponent : Int) : List Char :=
  let digits := Nat.toDigits 10 exponent.natAbs
  (if exponent < 0 then '-' else '+') :: (if digits.length < 2 then '0' :: digits else digits)

/-- The general format of a positive quotient. -/
def generalText (precision num den : ℕ) : List Char :=
  let (number, exponent) := significand precision num den
  let digits := Nat.toDigits 10 number
  if exponent < -4 ∨ precision ≤ exponent then
    digits.take 1 ++ fractionText (digits.drop 1) ++ 'e' :: exponentText exponent
  else if exponent < 0 then
    '0' :: fractionText (List.replicate (-exponent - 1).toNat '0' ++ digits)
  else
    digits.take (exponent.toNat + 1) ++ fractionText (digits.drop (exponent.toNat + 1))

/-- The text of a word in the general format. -/
def Datum.text (precision : ℕ) : Datum → String
  | nan negative => if negative then "-nan" else "nan"
  | infinity negative => if negative then "-inf" else "inf"
  | finite negative mantissa exponent =>
    let magnitude :=
      if mantissa = 0 then ['0']
      else if 0 ≤ exponent then generalText precision (mantissa * 2 ^ exponent.toNat) 1
      else generalText precision mantissa (2 ^ (-exponent).toNat)
    String.ofList (if negative then '-' :: magnitude else magnitude)

/-- One tenth as a binary64 word. -/
example : (Format.binary64.decode 0x3FB999999999999A).text 6 = "0.1" := by
  decide

/-! ### Reading -/

/-- The exponent of the leading binary digit of a positive quotient. -/
def binaryExponent (num den : ℕ) : Int :=
  if den ≤ num then Nat.log 2 (num / den) else -(Nat.clog 2 ((den + num - 1) / num) : ℕ)

namespace Format

variable (f : Format)

/-- The bit of a negative number. -/
def signBit (negative : Bool) : ℕ :=
  if negative then 2 ^ (f.exponentBits + f.fractionBits) else 0

/-- The word of a positive infinity. -/
def infinityWord : ℕ :=
  (2 ^ f.exponentBits - 1) * 2 ^ f.fractionBits

/-- The word of the number nearest to a quotient. -/
def encode (negative : Bool) (num den : ℕ) : ℕ :=
  let least : Int := 2 - 2 ^ (f.exponentBits - 1) - f.fractionBits
  let exponent := max (binaryExponent num den - f.fractionBits) least
  let mantissa :=
    if 0 ≤ exponent then roundQuotient num (den * 2 ^ exponent.toNat)
    else roundQuotient (num * 2 ^ (-exponent).toNat) den
  -- The leading bit of the mantissa, and a carry out of it, count into the exponent field.
  let magnitude :=
    if num = 0 then 0 else mantissa + (exponent - least).toNat * 2 ^ f.fractionBits
  f.signBit negative + min magnitude f.infinityWord

end Format

/-- The word of one tenth. -/
example : Format.binary64.encode false 1 10 = 0x3FB999999999999A := by
  decide

end FloatText
