import CacheVerdict.Ordered.Queue
import CacheVerdict.Resolution.Tracker
import CacheVerdict.Settings
import CacheVerdict.StackHeight.Flow

/-!
# Searching for addresses

The search for the address of an access goes backwards through the access's own node, then through
predecessors in breadth-first order, until no register is pending, no predecessor is left, or the
budget of nodes is spent.
-/

namespace CacheVerdict

/-- A node as searches see it. -/
structure SearchNode where
  /-- The instructions, the last one first, each with the stack height before it. -/
  code : List (Instruction × StackHeight) := []
  predecessors : List Nat := []

/-- The nodes of a procedure as searches see them, worked out once for all searches. -/
structure SearchMap where
  nodes : Array SearchNode

/-- A node of the map. -/
def SearchMap.node (m : SearchMap) (n : Nat) : SearchNode :=
  m.nodes[n]?.getD {}

/-- The map of a procedure. -/
def Procedure.searchMap (p : Procedure) (heights : StackHeights) : SearchMap where
  nodes := (p.nodeIds.map fun n =>
    { code := ((p.codeOf n).zip (heights.beforeEach n)).reverse
      predecessors := p.predecessors n : SearchNode }).toArray

namespace Tracker

/-- Searches the waiting predecessors, of which `left` more may be visited. -/
def search (m : SearchMap) (before : Address) (budget : Nat) :
    Nat → Queue Nat → Tracker → Except ResolveFault Tracker
  | left, queue, t =>
    if t.isResolved then .ok t
    else
      match queue.pop? with
      | none => .error (.unresolved (t.pending.toList.map Register.name))
      | some (n, rest) =>
        match left with
        | 0 => .error (.budget budget)
        | left + 1 =>
          let node := m.node n
          (t.scan before node.code).bind fun t =>
            let queue := if t.isResolved then rest else rest.pushAll node.predecessors
            search m before budget left queue { t with visited := t.visited + 1 }

/-- The height before the first instruction at an address of a node. -/
def heightAt (m : SearchMap) (n : Nat) (a : Address) : StackHeight :=
  match (m.node n).code.reverse.find? (·.1.address = a) with
  | some (_, h) => h
  | none => .unknown

/-- The tracker of an access before the search. -/
def ofAccess (s : Settings) (m : SearchMap) (n : Nat) (a : Address) (access : MemoryAccess) :
    Except ResolveFault Tracker := do
  let offset ← (access.offset.map Immediate.read).getD (.ok 0)
  let isRange := s.segmentAsRange || (access.indexed && s.indexedAsRange)
  let t := start access.targets offset isRange
  return if t.isStackRelative then { t with stackHeight := heightAt m n a } else t

/-- Searches for the address of an instruction of a node. A search may visit one node more than the
budget before it gives up. -/
def backtrack (s : Settings) (m : SearchMap) (n : Nat) (i : Instruction) :
    Except ResolveFault Tracker :=
  match i.operation with
  | .access access => do
    let node := m.node n
    let t ← ofAccess s m n i.address access
    let t ← t.scan i.address node.code
    t.search m i.address s.nodeBudget (s.nodeBudget + 1) (.ofList node.predecessors)
  | _ => .error (.nonLinear i.text)

end Tracker

end CacheVerdict
