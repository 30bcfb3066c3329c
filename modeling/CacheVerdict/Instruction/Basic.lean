import CacheVerdict.Hierarchy.Geometry

/-!
# Instructions

Machine instructions as far as address resolution looks at them: register moves, additions, page
addresses and memory accesses, with everything else told apart only as branch or other.
-/

namespace CacheVerdict

open Std (TransOrd LawfulEqOrd TransCmp LawfulEqCmp)

/-- A machine register, by its assembler name. -/
structure Register where
  name : String
deriving DecidableEq, Repr, Inhabited

namespace Register

instance : Ord Register := ⟨compareOn name⟩

instance : TransOrd Register := inferInstanceAs (TransCmp (compareOn name))

instance : LawfulEqOrd Register where
  eq_of_compare {a b} h := by
    have h : compare a.name b.name = .eq := h
    have : a.name = b.name := LawfulEqCmp.eq_of_compare h
    cases a
    cases b
    simp_all

/-- Whether the register is the stack pointer, in either width. -/
def isStackPointer (r : Register) : Bool :=
  r.name = "sp" || r.name = "wsp"

end Register

/-- A source operand: a register, or the text of an immediate. -/
inductive Operand where
  | register (r : Register)
  | immediate (text : String)
deriving DecidableEq, Repr

/-- A memory access at the sum of its target registers and its offset. -/
structure MemoryAccess where
  /-- The base register, then the index register. -/
  targets : List Register
  offset : Option String
  /-- The access walks over memory by an index register. -/
  indexed : Bool
  store : Bool
  /-- What the access adds to its base register. -/
  writeback : Option String
deriving DecidableEq, Repr

/-- What an instruction does. -/
inductive Operation where
  /-- The register `dst` takes the value of `src`. -/
  | move (dst : Register) (src : Operand)
  /-- The register `dst` takes the value of `lhs + rhs`, or of `lhs - rhs`. -/
  | add (dst lhs : Register) (rhs : Operand) (subtract : Bool)
  /-- The register `dst` takes the address of a page. -/
  | page (dst : Register) (page : String)
  | access (access : MemoryAccess)
  | branch
  | other
deriving DecidableEq, Repr

/-- A decoded instruction at its address, with the text it was decoded from. -/
structure Instruction where
  address : Address
  operation : Operation
  text : String
deriving DecidableEq, Repr

namespace Instruction

/-- The memory access of a load or store. -/
def access? (i : Instruction) : Option MemoryAccess :=
  match i.operation with
  | .access access => some access
  | _ => none

/-- Whether the instruction loads or stores. -/
def isAccess (i : Instruction) : Bool :=
  i.access?.isSome

end Instruction

end CacheVerdict
