/-!
# Numerals

Reading unsigned numerals in a given radix below a given limit, with the cause of a refusal, and
writing numbers in hexadecimal.
-/

namespace CacheVerdict

/-- Why a text is no numeral. -/
inductive NumeralFault where
  | empty
  | badDigit
  | tooLarge
deriving DecidableEq, Repr

/-- The wording of a refusal. -/
def NumeralFault.message : NumeralFault → String
  | .empty => "cannot parse integer from empty string"
  | .badDigit => "invalid digit found in string"
  | .tooLarge => "number too large to fit in target type"

namespace Numeral

/-- The value of a digit of any radix up to 36; letters of either case follow the ten digits. -/
def digitValue? (c : Char) : Option Nat :=
  if '0' ≤ c ∧ c ≤ '9' then some (c.toNat - '0'.toNat)
  else if 'a' ≤ c ∧ c ≤ 'z' then some (c.toNat - 'a'.toNat + 10)
  else if 'A' ≤ c ∧ c ≤ 'Z' then some (c.toNat - 'A'.toNat + 10)
  else none

/-- The value of a digit below `radix`. -/
def digit? (radix : Nat) (c : Char) : Option Nat :=
  (digitValue? c).filter (· < radix)

/-- Reads digits onto `acc`, from the left. A bad digit and a value that reaches `limit` are
reported where they are met. -/
def readOnto (radix limit : Nat) : Nat → List Char → Except NumeralFault Nat
  | acc, [] => .ok acc
  | acc, c :: rest =>
    match digit? radix c with
    | none => .error .badDigit
    | some d =>
      if acc * radix + d < limit then readOnto radix limit (acc * radix + d) rest
      else .error .tooLarge

/-- Reads a numeral below `limit`; one `+` may stand before its digits. -/
def read (radix limit : Nat) : List Char → Except NumeralFault Nat
  | [] => .error .empty
  | '+' :: c :: rest => readOnto radix limit 0 (c :: rest)
  | s => readOnto radix limit 0 s

/-- Reads a 64-bit numeral. -/
def read64 (radix : Nat) (s : List Char) : Except NumeralFault UInt64 :=
  (read radix UInt64.size s).map UInt64.ofNat

/-- Hexadecimal digits, the lower-case ones. -/
def hexDigits (n : Nat) : List Char :=
  Nat.toDigits 16 n

/-- Writes a number in hexadecimal behind `0x`. -/
def hex (n : Nat) : String :=
  "0x" ++ String.ofList (hexDigits n)

end Numeral

end CacheVerdict
