import CacheVerdict.Instruction.Basic
import CacheVerdict.Ordered.Set

/-!
# Procedures

A procedure is a control-flow graph. Its nodes hold straight-line code or stand for a call, its
edges may come from outside the procedure, and its loops are sets of nodes with a header. Nodes and
loops are known by their positions.
-/

namespace CacheVerdict

/-- What a node stands for. A call carries no code of its own. -/
inductive NodeBody where
  | straight (code : List Instruction)
  | loopHead (code : List Instruction)
  | call (callee : String)
deriving DecidableEq, Repr

namespace NodeBody

/-- The code of a node, in program order. -/
def code : NodeBody → List Instruction
  | .straight code => code
  | .loopHead code => code
  | .call _ => []

/-- The procedure that a call node calls. -/
def callee? : NodeBody → Option String
  | .call callee => some callee
  | _ => none

/-- Adds an instruction at the end of the code; a call takes none. -/
def push? : NodeBody → Instruction → Option NodeBody
  | .straight code, i => some (.straight (code ++ [i]))
  | .loopHead code, i => some (.loopHead (code ++ [i]))
  | .call _, _ => none

end NodeBody

/-- A named node. -/
structure Node where
  name : String
  body : NodeBody
deriving DecidableEq, Repr

namespace Node

/-- The code of the node. -/
def code (n : Node) : List Instruction :=
  n.body.code

/-- The procedure that the node calls. -/
def callee? (n : Node) : Option String :=
  n.body.callee?

/-- Whether the node stands for a call. -/
def isCall (n : Node) : Bool :=
  n.callee?.isSome

/-- A call node carries no code. -/
theorem code_of_isCall {n : Node} (h : n.isCall = true) : n.code = [] := by
  obtain ⟨_, body⟩ := n
  cases body with
  | straight | loopHead => cases h
  | call => rfl

end Node

/-- A control-flow edge; without a source it enters the procedure. -/
structure Edge where
  source : Option Nat
  target : Nat
deriving DecidableEq, Repr

/-- A loop: its header, and all its nodes with the header among them. -/
structure Loop where
  header : Nat
  body : OrderedSet Nat
deriving DecidableEq

/-- A procedure and its control-flow graph. -/
structure Procedure where
  name : String
  nodes : List Node := []
  edges : List Edge := []
  loops : List Loop := []
deriving DecidableEq

namespace Procedure

/-- Adds a node behind the others. -/
def addNode (p : Procedure) (n : Node) : Procedure :=
  { p with nodes := p.nodes ++ [n] }

/-- Adds an edge behind the others. -/
def addEdge (p : Procedure) (e : Edge) : Procedure :=
  { p with edges := p.edges ++ [e] }

/-- Whether both ends of an edge are nodes of the procedure. -/
def hasEnds (p : Procedure) (e : Edge) : Bool :=
  e.target < p.nodes.length && e.source.all (· < p.nodes.length)

/-- Adds an edge between nodes of the procedure. -/
def addEdge? (p : Procedure) (e : Edge) : Option Procedure :=
  if p.hasEnds e then some (p.addEdge e) else none

/-- Adds a loop; its header is one of its nodes. -/
def addLoop (p : Procedure) (header : Nat) (body : List Nat) : Procedure :=
  { p with loops := p.loops ++ [⟨header, OrderedSet.ofList (body ++ [header])⟩] }

/-- The positions of the nodes. -/
def nodeIds (p : Procedure) : List Nat :=
  List.range p.nodes.length

/-- The code of a node. -/
def codeOf (p : Procedure) (n : Nat) : List Instruction :=
  (p.nodes[n]?.map Node.code).getD []

/-- The position of the last node of a name. -/
def nodeNamed? (p : Procedure) (name : String) : Option Nat :=
  p.nodes.zipIdx.reverse.findSome? fun (n, i) => if n.name = name then some i else none

/-- The sources of the edges into a node, in the order of the edges. -/
def predecessors (p : Procedure) (n : Nat) : List Nat :=
  p.edges.filterMap fun e => if e.target = n then e.source else none

/-- The targets of the edges out of a node, in the order of the edges. -/
def successors (p : Procedure) (n : Nat) : List Nat :=
  p.edges.filterMap fun e => if e.source = some n then some e.target else none

/-- The targets of the edges that enter the procedure, in order. Without such an edge the procedure
starts at its first node. -/
def entries (p : Procedure) : List Nat :=
  let targets := p.edges.filterMap fun e => if e.source.isNone then some e.target else none
  if targets.isEmpty && !p.nodes.isEmpty then [0] else (OrderedSet.ofList targets).toList

/-- The procedures called, in the order of the nodes. -/
def callees (p : Procedure) : List String :=
  p.nodes.filterMap Node.callee?

end Procedure

end CacheVerdict
