import CacheVerdict.Text.Blank
import CacheVerdict.Text.Numeral

/-!
# Immediate operands

An immediate is kept as the assembler text wrote it and read as a 64-bit number when it is needed:
`[#][-]` followed by decimal digits, or by `0x` and hexadecimal digits.
-/

namespace CacheVerdict.Immediate

/-- Reads one or more digits of a radix as a number below `2 ^ 64`. -/
def digits? (radix : Nat) : List Char → Option Nat
  | [] => none
  | s => (Numeral.readOnto radix UInt64.size 0 s).toOption

/-- Reads an unsigned immediate. -/
def magnitude? : List Char → Option Nat
  | '0' :: 'x' :: s => digits? 16 s
  | '0' :: 'X' :: s => digits? 16 s
  | s => digits? 10 s

/-- Drops one `#` from the front. -/
def dropHash : List Char → List Char
  | '#' :: s => s
  | s => s

/-- Reads an immediate. A magnitude of `2 ^ 63` or more stands for its two's complement, and
negation wraps. -/
def value? (text : String) : Option Int64 :=
  match dropHash (Text.trim text.toList) with
  | '-' :: s => (magnitude? s).map fun m => -(UInt64.ofNat m).toInt64
  | s => (magnitude? s).map fun m => (UInt64.ofNat m).toInt64

end CacheVerdict.Immediate
