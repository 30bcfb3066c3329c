import CacheVerdict.Hierarchy.Geometry

/-!
# Address ranges

Inclusive ranges of instruction addresses, as they are given for statistics.
-/

namespace CacheVerdict

/-- Why a text is no address or no range of addresses. -/
inductive AddressFault where
  | address (text : String) (cause : NumeralFault)
  | range (text : String)
deriving DecidableEq, Repr

/-- The wording of a refusal. -/
def AddressFault.message : AddressFault → String
  | .address text cause => s!"bad address `{text}`: {cause.message}"
  | .range text => s!"expected `<lo>-<hi>`, got `{text}`"

namespace Address

/-- Reads an address: decimal, or hexadecimal behind `0x`. -/
def read (s : List Char) : Except AddressFault Address :=
  let s := Text.trim s
  let value :=
    match s with
    | '0' :: 'x' :: digits => Numeral.read64 16 digits
    | '0' :: 'X' :: digits => Numeral.read64 16 digits
    | digits => Numeral.read64 10 digits
  value.mapError (.address (String.ofList s))

end Address

/-- The addresses from `lo` to `hi`, both included. -/
structure AddressRange where
  lo : Address
  hi : Address
deriving DecidableEq, Repr

namespace AddressRange

/-- Whether an address lies in the range. -/
def contains (r : AddressRange) (a : Address) : Bool :=
  r.lo ≤ a && a ≤ r.hi

/-- Whether both ends of another range lie within this one. -/
def covers (r s : AddressRange) : Bool :=
  r.lo ≤ s.lo && s.hi ≤ r.hi

/-- How reports show a range. -/
def render (r : AddressRange) : String :=
  Numeral.hex r.lo.toNat ++ "-" ++ Numeral.hex r.hi.toNat

/-- Reads `lo-hi`. -/
def read (text : String) : Except AddressFault AddressRange :=
  match Text.cutAt (· == '-') text.toList with
  | none => .error (.range text)
  | some (lo, hi) => do
    let lo ← Address.read lo
    let hi ← Address.read hi
    return ⟨lo, hi⟩

end AddressRange

end CacheVerdict
