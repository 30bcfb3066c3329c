import CacheVerdict.Procedure.Basic

/-!
# Loop nests

Loops nest by containment of their nodes: the parent of a loop is the smallest loop that strictly
contains it, and its depth counts the loops around it. The nest of a procedure is worked out once
and then asked.
-/

namespace CacheVerdict

namespace Loop

/-- Whether the loop holds every node of another and more. -/
def encloses (outer inner : Loop) : Bool :=
  inner.body.size < outer.body.size && inner.body.toList.all outer.body.contains

end Loop

/-- Loops with their parents and depths, all by position. -/
structure LoopNest where
  loops : List Loop
  parents : List (Option Nat)
  depths : List Nat
deriving DecidableEq

namespace LoopNest

/-- The loops, each with its position, that strictly contain `inner` at position `l`. -/
def enclosers (loops : List Loop) (l : Nat) (inner : Loop) : List (Loop × Nat) :=
  loops.zipIdx.filter fun (outer, o) => o != l && outer.encloses inner

/-- Of loops with their positions, the first of the least size. -/
def smallest : List (Loop × Nat) → Option (Loop × Nat)
  | [] => none
  | x :: rest =>
    match smallest rest with
    | none => some x
    | some y => if y.1.body.size < x.1.body.size then some y else some x

/-- For each loop the innermost one that strictly contains it. -/
def parentsOf (loops : List Loop) : List (Option Nat) :=
  loops.zipIdx.map fun (inner, l) => (smallest (enclosers loops l inner)).map Prod.snd

/-- The loops around loop `l`, innermost first, as far as `fuel` reaches. -/
def ancestorsWithin (parents : List (Option Nat)) : Nat → Nat → List Nat
  | 0, _ => []
  | fuel + 1, l =>
    match parents[l]?.join with
    | none => []
    | some o => o :: ancestorsWithin parents fuel o

/-- The nest of loops. A parent is larger than its child, so a loop has fewer ancestors than there
are loops; an outermost loop has depth 1. -/
def ofLoops (loops : List Loop) : LoopNest :=
  let parents := parentsOf loops
  { loops, parents
    depths := (List.range loops.length).map fun l =>
      1 + (ancestorsWithin parents loops.length l).length }

/-- The innermost loop that strictly contains loop `l`. -/
def parent? (nest : LoopNest) (l : Nat) : Option Nat :=
  nest.parents[l]?.join

/-- The loops around loop `l`, innermost first. -/
def ancestors (nest : LoopNest) (l : Nat) : List Nat :=
  ancestorsWithin nest.parents nest.loops.length l

/-- The nesting depth of loop `l`. -/
def depth (nest : LoopNest) (l : Nat) : Nat :=
  nest.depths[l]?.getD 0

/-- The loops that contain a node, each with its depth, in the order of their positions. -/
def around (nest : LoopNest) (n : Nat) : List (Nat × Nat) :=
  nest.loops.zipIdx.filterMap fun (loop, l) =>
    if loop.body.contains n then some (l, nest.depth l) else none

/-- The loops that contain a node, innermost first: the deepest, then those less deep, down to the
outermost. -/
def enclosing (nest : LoopNest) (n : Nat) : List Nat :=
  let around := nest.around n
  (List.range (nest.loops.length + 2)).reverse.flatMap fun depth =>
    (around.filter fun e => e.2 = depth).map Prod.fst

/-- The innermost loop that contains a node. -/
def innermost? (nest : LoopNest) (n : Nat) : Option Nat :=
  (nest.enclosing n).head?

end LoopNest

namespace Procedure

/-- The nest of the procedure's loops. -/
def loopNest (p : Procedure) : LoopNest :=
  .ofLoops p.loops

/-- The name of loop `l` in reports, after its header, which has to be a node of the procedure. -/
def loopName? (p : Procedure) (l : Nat) : Option String :=
  (p.loops[l]?.bind fun loop => p.nodes[loop.header]?).map fun header => "loop@" ++ header.name

/-- Whether an edge goes back to the header of a loop from one of its nodes. -/
def isBackEdge (p : Procedure) (source target : Nat) : Bool :=
  p.loops.any fun loop => loop.header = target && loop.body.contains source

end Procedure

end CacheVerdict
