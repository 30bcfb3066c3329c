import CacheVerdict.Hierarchy.Basic
import CacheVerdict.Ordered.Set

/-!
# Memory blocks and line references

A block is a byte that an instruction touches. A reference is the line of a block, told apart at
the finest line size of the hierarchy, or the one reference that stands for every address that is
not known.
-/

namespace CacheVerdict

open Std (TransOrd LawfulEqOrd TransCmp LawfulEqCmp)

/-- A byte address touched by an instruction. -/
structure Block where
  instruction : Address
  byte : Address
deriving DecidableEq, Repr

namespace Block

/-- The block at byte 0 stands for an address that is not known. -/
def unknown (instruction : Address) : Block :=
  ⟨instruction, 0⟩

/-- Whether the block stands for an address that is not known. -/
def isUnknown (b : Block) : Bool :=
  b.byte = 0

/-- The line of the block, for lines of `2 ^ shift` bytes. -/
def line (b : Block) (shift : Nat) : Line :=
  b.byte >>> UInt64.ofNat shift

/-- The line of the block, if lines of `2 ^ shift` bytes fit in 64-bit addresses. -/
def line? (b : Block) (shift : Nat) : Option Line :=
  if shift < 64 then some (b.line shift) else none

end Block

/-- A reference to a cache line, or to no known line. -/
inductive Reference where
  | line (kind : AccessKind) (id : Line)
  | unknown
deriving DecidableEq, Repr

namespace Reference

/-- References to unknown lines are data references. -/
def kind : Reference → AccessKind
  | .line kind _ => kind
  | .unknown => .data

/-- The line's number at the finest line size; 0 where it is not known. -/
def id : Reference → Line
  | .line _ id => id
  | .unknown => 0

/-- Whether the line is not known. -/
def isUnknown (r : Reference) : Bool :=
  r = .unknown

/-- Fetches first, then data, then the unknown reference. -/
def rank : Reference → Nat
  | .line kind _ => kind.rank
  | .unknown => 2

instance : Ord Reference := ⟨compareLex (compareOn rank) (compareOn id)⟩

instance : TransOrd Reference := inferInstanceAs (TransCmp (compareLex _ _))

instance : LawfulEqOrd Reference where
  eq_of_compare {a b} h := by
    obtain ⟨hrank, hid⟩ := compareLex_eq_eq.1 h
    have hrank : a.rank = b.rank := LawfulEqCmp.eq_of_compare hrank
    have hid : a.id = b.id := LawfulEqCmp.eq_of_compare hid
    rcases a with ⟨_ | _, _⟩ | _ <;> rcases b with ⟨_ | _, _⟩ | _ <;>
      simp_all [rank, id, AccessKind.rank]

/-- The reference of a byte address. -/
def ofAddress (shift : Nat) (kind : AccessKind) (a : Address) : Reference :=
  .line kind (a >>> UInt64.ofNat shift)

/-- The data reference of a block. -/
def ofBlock (shift : Nat) (b : Block) : Reference :=
  if b.isUnknown then .unknown else .line .data (b.line shift)

/-- The first byte of the line. -/
def byte (shift : Nat) (r : Reference) : Address :=
  r.id <<< UInt64.ofNat shift

/-- The line that the reference occupies in a cache. -/
def lineAt (shift : Nat) (g : Geometry) (r : Reference) : Line :=
  g.lineOf (r.byte shift)

/-- How reports show the reference. -/
def label : Reference → String
  | .line kind id => kind.label ++ ":" ++ Numeral.hex id.toNat
  | .unknown => AccessKind.data.label ++ ":?"

end Reference

end CacheVerdict
