import CacheVerdict.Procedure.LoopNest
import CacheVerdict.Report.Table
import CacheVerdict.Text.Quoted

/-!
# Drawings of procedures

The control-flow graph of a procedure as a GraphViz graph, with the classifications of each
instruction beside it.
-/

namespace CacheVerdict

namespace Drawing

/-- The note on one row: the level and the classification, marked for data. -/
def note (r : Row) : String :=
  let mark := if r.kind = .data then "d" else ""
  mark ++ r.level.label ++ ":" ++ r.classification.label

/-- The notes on an instruction, in the order of the rows. -/
def notes (rows : List Row) (a : Address) : String :=
  " ".intercalate ((rows.filter fun r => r.instruction = a).map note)

/-- The heading of a node. -/
def heading (n : Node) : String :=
  match n.body with
  | .straight _ => n.name
  | .loopHead _ => n.name ++ " (loop)"
  | .call callee => n.name ++ " -> " ++ callee

/-- The label of a node: its heading and its instructions, a line each. -/
def nodeLabel (rows : List Row) (n : Node) : String :=
  let code := n.code.map fun i =>
    Numeral.hex i.address.toNat ++ ": " ++ i.text ++ "  [" ++ notes rows i.address ++ "]\\l"
  heading n ++ "\\l" ++ String.join code

/-- The statement of a node. -/
def nodeStatement (id label shape : String) : String :=
  "    " ++ id ++ "[label=\"" ++ label ++ "\"][shape=\"" ++ shape ++ "\"];\n"

/-- The statements of the nodes. -/
def nodes (rows : List Row) (p : Procedure) : List String :=
  p.nodes.zipIdx.map fun (n, i) =>
    nodeStatement s!"n{i}" (Text.markedLabel (nodeLabel rows n))
      (if n.isCall then "component" else "box")

/-- The statement of an edge; an edge into the procedure starts at its entry. -/
def edgeStatement (p : Procedure) (e : Edge) : String :=
  let source := match e.source with
    | none => "entry"
    | some n => s!"n{n}"
  let label := if e.source.any (p.isBackEdge · e.target) then "back" else ""
  s!"    {source} -> n{e.target}[label=\"{label}\"];\n"

end Drawing

/-- The drawing of a procedure, with notes from a table. -/
def Procedure.draw (p : Procedure) (t : Table) : String :=
  let rows := t.rows.filter fun r => r.procedure = p.name
  "digraph CFG \x7b\n" ++
    Drawing.nodeStatement "entry" (Text.plainLabel p.name) "oval" ++
    String.join (Drawing.nodes rows p) ++
    String.join (p.edges.map (Drawing.edgeStatement p)) ++ "\x7d\n"

end CacheVerdict
