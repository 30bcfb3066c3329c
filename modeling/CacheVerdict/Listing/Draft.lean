import CacheVerdict.Procedure.Basic

/-!
# Drafts of procedures

A listing names the ends of edges and the nodes of loops before it is known which nodes there are.
A draft keeps those names, each with the number of its line, until the procedure ends.
-/

namespace CacheVerdict

/-- What is wrong with a line of a listing. -/
inductive LineFault where
  | number (text : String) (cause : NumeralFault)
  | segmentShape
  | unknownRegion (region : String)
  | procedureShape
  | duplicateProcedure (name : String)
  | nodeShape
  | edgeShape
  | loopShape
  | insideProcedure (directive procedure : String)
  | outsideProcedure (directive : String)
  | unexpected (word : String)
  | outsideNode
  | codeInCall (node : String)
  | codeShape
  | duplicateNode (name : String)
  | unknownNode (name : String)
  | missingEnd (procedure : String)
deriving DecidableEq, Repr

/-- The wording of a complaint. -/
def LineFault.message : LineFault → String
  | .number text cause => s!"`{text}`: {cause.message}"
  | .segmentShape => "expected `SEGMENT <region> <name> <flags> <lower> <upper>`"
  | .unknownRegion region => s!"unknown region `{region}`"
  | .procedureShape => "expected `PROCEDURE <name>`"
  | .duplicateProcedure name => s!"duplicate procedure `{name}`"
  | .nodeShape => "expected `NODE <name> <STRAIGHT|LOOP|VIRTUAL <callee>>`"
  | .edgeShape => "expected `EDGE <src|-> <dst>`"
  | .loopShape => "expected `LOOP <header> <body...>`"
  | .insideProcedure directive procedure =>
    s!"`{directive}` inside procedure `{procedure}`; missing `END`"
  | .outsideProcedure directive => s!"`{directive}` outside of a procedure"
  | .unexpected word => s!"unexpected `{word}`"
  | .outsideNode => "instruction outside of a node"
  | .codeInCall node => s!"virtual node `{node}` cannot carry instructions"
  | .codeShape => "expected `<address>: <instruction>`"
  | .duplicateNode name => s!"duplicate node `{name}`"
  | .unknownNode name => s!"unknown node `{name}`"
  | .missingEnd procedure => s!"procedure `{procedure}` is missing its `END`"

/-- Why a listing describes no program. -/
inductive ListingFault where
  | malformed (line : Nat) (fault : LineFault)
  | noProcedure
deriving DecidableEq, Repr

/-- The wording of a refusal. -/
def ListingFault.message : ListingFault → String
  | .malformed line fault => s!"malformed program export at line {line}: {fault.message}"
  | .noProcedure => "missing required input: exported listing has no procedure"

/-- A node and its line. -/
structure DraftNode where
  node : Node
  line : Nat
deriving DecidableEq

/-- An edge between named nodes and its line. -/
structure DraftEdge where
  source : Option String
  target : String
  line : Nat
deriving DecidableEq

/-- A loop of named nodes and its line. -/
structure DraftLoop where
  header : String
  body : List String
  line : Nat
deriving DecidableEq

/-- A procedure as far as it has been read. -/
structure Draft where
  name : String
  nodes : List DraftNode := []
  edges : List DraftEdge := []
  loops : List DraftLoop := []
deriving DecidableEq

namespace Draft

/-- Adds a node, whose name must be new. -/
def placeNode (p : Procedure) (n : DraftNode) : Except ListingFault Procedure :=
  match p.nodeNamed? n.node.name with
  | some _ => .error (.malformed n.line (.duplicateNode n.node.name))
  | none => .ok (p.addNode n.node)

/-- The position of a named node. -/
def find (p : Procedure) (line : Nat) (name : String) : Except ListingFault Nat :=
  match p.nodeNamed? name with
  | some i => .ok i
  | none => .error (.malformed line (.unknownNode name))

/-- Adds an edge; its source is looked up first. -/
def placeEdge (p : Procedure) (e : DraftEdge) : Except ListingFault Procedure := do
  let source ← e.source.mapM (find p e.line)
  let target ← find p e.line e.target
  return p.addEdge ⟨source, target⟩

/-- Adds a loop; its header is looked up first. -/
def placeLoop (p : Procedure) (l : DraftLoop) : Except ListingFault Procedure := do
  let header ← find p l.line l.header
  let body ← l.body.mapM (find p l.line)
  return p.addLoop header body

/-- The procedure of a draft: first all nodes, then the edges, then the loops. -/
def finish (d : Draft) : Except ListingFault Procedure := do
  let p ← d.nodes.foldlM placeNode { name := d.name }
  let p ← d.edges.foldlM placeEdge p
  d.loops.foldlM placeLoop p

end Draft

end CacheVerdict
