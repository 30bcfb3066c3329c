import CacheVerdict.Text.Blank
import CacheVerdict.Text.Numeral

/-!
# Cache geometry

The dimensions of one cache, the conditions under which they describe a cache, and the arithmetic
of lines, sets and tags over 64-bit byte addresses.
-/

namespace CacheVerdict

/-- A byte address. -/
abbrev Address := UInt64

/-- The number of a cache line: a byte address without the bits inside the line. -/
abbrev Line := UInt64

/-- Capacity in bytes, associativity, and line size in bytes, as they are asked for. -/
structure Dimensions where
  capacity : UInt64
  ways : UInt32
  lineSize : UInt64
deriving DecidableEq, Repr, Inhabited

/-- Why dimensions describe no cache. -/
inductive GeometryFault where
  | lineSize (size : UInt64)
  | noWays
  | setTooLarge
  | capacity (bytes : UInt64) (setBytes : Nat)
deriving DecidableEq, Repr

/-- The wording of a refusal. -/
def GeometryFault.message : GeometryFault → String
  | .lineSize size => s!"line size {size.toNat} is not a power of two"
  | .noWays => "associativity must be positive"
  | .setTooLarge => "associativity x line size overflows"
  | .capacity bytes setBytes =>
    s!"capacity {bytes.toNat} is not a positive multiple of associativity x line size ({setBytes})"

namespace Dimensions

/-- The bytes of one set. -/
def setBytes (d : Dimensions) : Nat :=
  d.lineSize.toNat * d.ways.toNat

/-- The line size is a power of two, there is a way, a set fits in 64 bits, and the capacity is a
positive number of whole sets. -/
structure Valid (d : Dimensions) : Prop where
  lineSize_eq : d.lineSize.toNat = Nat.pow 2 d.lineSize.toNat.log2
  ways_ne : d.ways ≠ 0
  setBytes_lt : d.setBytes < UInt64.size
  capacity_ne : d.capacity ≠ 0
  capacity_mod : d.capacity.toNat % d.setBytes = 0

end Dimensions

/-- Dimensions that describe a cache. -/
structure Geometry extends Dimensions where
  valid : toDimensions.Valid
deriving DecidableEq

namespace Dimensions

/-- The geometry of the given dimensions, or the first condition that fails. -/
def geometry (d : Dimensions) : Except GeometryFault Geometry :=
  if lineSize : d.lineSize.toNat = Nat.pow 2 d.lineSize.toNat.log2 then
    if ways : d.ways ≠ 0 then
      if setBytes : d.setBytes < UInt64.size then
        if capacity : d.capacity ≠ 0 ∧ d.capacity.toNat % d.setBytes = 0 then
          .ok ⟨d, lineSize, ways, setBytes, capacity.1, capacity.2⟩
        else .error (.capacity d.capacity d.setBytes)
      else .error .setTooLarge
    else .error .noWays
  else .error (.lineSize d.lineSize)

end Dimensions

namespace Geometry

/-- The number of address bits inside a line. -/
def lineShift (g : Geometry) : Nat :=
  g.lineSize.toNat.log2

/-- The number of sets. -/
def sets (g : Geometry) : UInt64 :=
  g.capacity / UInt64.ofNat g.setBytes

/-- The line that holds a byte. -/
def lineOf (g : Geometry) (a : Address) : Line :=
  a >>> UInt64.ofNat g.lineShift

/-- The set that a line maps to. -/
def setOf (g : Geometry) (line : Line) : UInt64 :=
  line % g.sets

/-- What tells the lines of one set apart. -/
def tagOf (g : Geometry) (line : Line) : UInt64 :=
  line / g.sets

/-- The line of a set and a tag, if its number fits in 64 bits. -/
def lineAt? (g : Geometry) (set tag : UInt64) : Option Line :=
  let line := tag.toNat * g.sets.toNat + set.toNat
  if line < UInt64.size then some (UInt64.ofNat line) else none

end Geometry

/-- Why a text names no dimensions. -/
inductive DimensionsFault where
  | shape (text : String)
  | number (text : String) (cause : NumeralFault)
  | ways
deriving DecidableEq, Repr

/-- The wording of a refusal. -/
def DimensionsFault.message : DimensionsFault → String
  | .shape text => s!"expected `capacity,associativity,line_size`, got `{text}`"
  | .number text cause => s!"`{text}`: {cause.message}"
  | .ways => NumeralFault.tooLarge.message

namespace Dimensions

/-- A number of a dimensions text: decimal, or hexadecimal behind `0x`. -/
def readNumber (s : List Char) : Except DimensionsFault UInt64 :=
  let s := Text.trim s
  let value :=
    match s with
    | '0' :: 'x' :: digits => Numeral.read64 16 digits
    | digits => Numeral.read64 10 digits
  value.mapError (.number (String.ofList s))

/-- Reads `capacity,associativity,line_size`. -/
def read (text : String) : Except DimensionsFault Dimensions :=
  match text.toList.splitOnP (· == ',') with
  | [capacity, ways, lineSize] => do
    let capacity ← readNumber capacity
    let ways ← readNumber ways
    if ways.toNat < UInt32.size then
      let lineSize ← readNumber lineSize
      return ⟨capacity, ways.toUInt32, lineSize⟩
    else throw .ways
  | _ => .error (.shape text)

end Dimensions

end CacheVerdict
