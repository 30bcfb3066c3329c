import CacheVerdict.Procedure.Basic

/-!
# Programs

Procedures, and the data segments that addresses are looked up in.
-/

namespace CacheVerdict

/-- The addresses from `lower` up to but not including `upper`. -/
structure Segment where
  name : String
  flags : String
  lower : Address
  upper : Address
deriving DecidableEq, Repr

/-- Whether an address lies in the segment. -/
def Segment.contains (s : Segment) (a : Address) : Bool :=
  s.lower ≤ a && a < s.upper

/-- The segments of uninitialised and of initialised data. -/
structure Segments where
  bss : List Segment := []
  data : List Segment := []
deriving DecidableEq, Repr

/-- The segment of an address; uninitialised data is searched first. -/
def Segments.find? (s : Segments) (a : Address) : Option Segment :=
  (s.bss ++ s.data).find? (·.contains a)

/-- A whole program. -/
structure Program where
  segments : Segments := {}
  procedures : List Procedure := []
deriving DecidableEq

namespace Program

/-- The position of the last procedure of a name. -/
def procedureNamed? (p : Program) (name : String) : Option Nat :=
  p.procedures.zipIdx.reverse.findSome? fun (q, i) => if q.name = name then some i else none

/-- The positions of the procedures that procedure `i` calls, in increasing order. Calls out of the
program are left out. -/
def calleesOf (p : Program) (i : Nat) : OrderedSet Nat :=
  match p.procedures[i]? with
  | some q => OrderedSet.ofList (q.callees.filterMap p.procedureNamed?)
  | none => {}

/-- The positions of the procedures that some procedure calls. -/
def called (p : Program) : OrderedSet Nat :=
  OrderedSet.ofList (p.procedures.flatMap fun q => q.callees.filterMap p.procedureNamed?)

/-- The procedures that no procedure calls. -/
def roots (p : Program) : List Nat :=
  let called := p.called
  (List.range p.procedures.length).filter fun i => !called.contains i

end Program

end CacheVerdict
