import CacheVerdict.Instruction.Basic
import CacheVerdict.Instruction.Immediate

/-!
# Stack heights

How far the stack pointer has moved since the entry to the procedure. Adding or subtracting an
immediate and the writeback of an access through the stack pointer move it; any other write to it
loses the height.
-/

namespace CacheVerdict

/-- The distance of the stack pointer from its value on entry. -/
inductive StackHeight where
  | unreached
  | known (distance : Int64)
  | unknown
deriving DecidableEq, Repr, Inhabited

namespace StackHeight

/-- What is known where paths meet. -/
def join : StackHeight → StackHeight → StackHeight
  | .unreached, h => h
  | h, .unreached => h
  | .known a, .known b => if a = b then .known a else .unknown
  | .unknown, _ => .unknown
  | _, .unknown => .unknown

/-- The distance, where it is known. -/
def known? : StackHeight → Option Int64
  | .known distance => some distance
  | _ => none

/-- Moves the stack pointer; a height that is not known stays so. -/
def shift : StackHeight → Int64 → StackHeight
  | .known distance, amount => .known (distance + amount)
  | h, _ => h

/-- Moves the stack pointer by an immediate, or loses the height where the immediate is no number. -/
def shiftBy (h : StackHeight) (immediate : String) (negate : Bool) : StackHeight :=
  match Immediate.value? immediate with
  | some v => h.shift (if negate then -v else v)
  | none => .unknown

/-- The height after an instruction. -/
def after (h : StackHeight) (i : Instruction) : StackHeight :=
  match i.operation with
  | .move dst _ => if dst.isStackPointer then .unknown else h
  | .add dst lhs rhs subtract =>
    if dst.isStackPointer then
      match lhs.isStackPointer, rhs with
      | true, .immediate text => h.shiftBy text subtract
      | _, _ => .unknown
    else h
  | .page dst _ => if dst.isStackPointer then .unknown else h
  | .access access =>
    match access.targets, access.writeback with
    | base :: _, some text => if base.isStackPointer then h.shiftBy text false else h
    | _, _ => h
  | .branch => h
  | .other => h

/-- The height behind straight-line code. -/
def afterAll (h : StackHeight) (code : List Instruction) : StackHeight :=
  code.foldl after h

/-- The height before each instruction of straight-line code. -/
def beforeEach : StackHeight → List Instruction → List StackHeight
  | _, [] => []
  | h, i :: rest => h :: beforeEach (h.after i) rest

end StackHeight

end CacheVerdict
