import CacheVerdict.Flow.Queue
import CacheVerdict.Procedure.Basic
import CacheVerdict.StackHeight.Basic

/-!
# Stack heights of a procedure

The heights at the entries of all nodes, found by iterating over the control-flow graph. A height
goes from unreached to known to unknown and never back, so every node changes at most twice.
-/

namespace CacheVerdict

/-- The iteration: the height at the entry of each node, and the nodes to visit. -/
structure HeightFlow where
  entry : List StackHeight
  queue : List Nat
deriving DecidableEq

namespace HeightFlow

/-- The height at the entry of a node. -/
def heightOf (f : HeightFlow) (n : Nat) : StackHeight :=
  f.entry[n]?.getD .unreached

/-- The height at the entry of a node as its predecessors have it. -/
def meet (p : Procedure) (f : HeightFlow) (n : Nat) : StackHeight :=
  let start : StackHeight := if n ∈ p.entries then .known 0 else .unreached
  (p.predecessors n).foldl (fun h q => h.join ((f.heightOf q).afterAll (p.codeOf q))) start

/-- Visits a node taken from the queue: where its height changes, its successors wait again. -/
def visit (p : Procedure) (f : HeightFlow) (n : Nat) : HeightFlow :=
  let height := meet p f n
  if height = f.heightOf n then f
  else { entry := f.entry.set n height, queue := enqueueAll f.queue (p.successors n) }

/-- Visits the waiting nodes, at most `fuel` of them. -/
def run (p : Procedure) : Nat → HeightFlow → HeightFlow
  | 0, f => f
  | fuel + 1, f =>
    match f.queue with
    | [] => f
    | n :: rest => run p fuel (visit p { f with queue := rest } n)

/-- Nothing is reached, and the entries of the procedure wait. -/
def start (p : Procedure) : HeightFlow :=
  { entry := p.nodes.map fun _ => .unreached, queue := p.entries }

end HeightFlow

/-- The stack heights throughout a procedure. -/
structure StackHeights where
  /-- The height at the entry of each node. -/
  entry : List StackHeight := []
  /-- The height before each instruction of each node. -/
  before : List (List StackHeight) := []
deriving DecidableEq

namespace StackHeights

/-- The height at the entry of a node. -/
def atEntry (h : StackHeights) (n : Nat) : StackHeight :=
  h.entry[n]?.getD .unreached

/-- The height before each instruction of a node. -/
def beforeEach (h : StackHeights) (n : Nat) : List StackHeight :=
  h.before[n]?.getD []

end StackHeights

/-- The stack heights of a procedure. The entries wait once, and each of the two changes of a node
makes its successors wait once more. -/
def Procedure.stackHeights (p : Procedure) : StackHeights :=
  let entry := ((HeightFlow.start p).run p (p.nodes.length + 2 * p.edges.length)).entry
  { entry, before := p.nodes.zipWith (fun n h => h.beforeEach n.code) entry }

end CacheVerdict
