import CacheVerdict.Flow.Domain
import CacheVerdict.Flow.Queue
import CacheVerdict.Ordered.Map

/-!
# Solving the flow equations

Forward analysis of a region by a queue of nodes. Visiting a node computes the state at its entry
from the states behind its predecessors; where the state behind it changes, its successors wait
again. The iteration need not end for every domain, so it runs on fuel.
-/

namespace CacheVerdict

/-- The states at the entries of nodes and behind them. -/
structure Solution (S : Type) where
  ins : OrderedMap Nat S
  outs : OrderedMap Nat S
  /-- The number of visits made. -/
  visits : Nat

/-- The iteration: the states found so far and the nodes to visit. -/
structure Iteration (S : Type) extends Solution S where
  queue : List Nat

namespace Iteration

variable {S : Type} [Domain S] [DecidableEq S]

/-- All nodes of the region wait, in order, and nothing is reached. -/
def start (r : Region) : Iteration S :=
  let unreached := OrderedMap.ofList (r.nodes.toList.map fun n => (n, Domain.bottom))
  { ins := unreached, outs := unreached, visits := 0, queue := r.nodes.toList }

/-- The state at the entry of a node, joined from the starting state at an entry of the region and
from the states behind the predecessors that lie in it. -/
def meet (s : Summary) (r : Region) (outs : OrderedMap Nat S) (n : Nat) : S :=
  let initial :=
    if n ∈ r.entries then Domain.join Domain.bottom (Domain.start s.coldStart) else Domain.bottom
  (s.predecessorsOf n).foldl (fun joined p => (outs.get? p).elim joined (Domain.join joined)) initial

/-- Visits a node taken from the queue. -/
def visit (s : Summary) (r : Region) (it : Iteration S) (n : Nat) : Iteration S :=
  let input := meet s r it.outs n
  let output := Domain.transferAll s.geometry input (s.eventsOf n)
  let it := { it with ins := it.ins.insert n input, visits := it.visits + 1 }
  if it.outs.get? n = some output then it
  else
    { it with
      outs := it.outs.insert n output
      queue := enqueueAll it.queue ((s.successorsOf n).filter r.nodes.contains) }

/-- Visits the waiting nodes until none is left; none of the answers if that takes more than `fuel`
visits. -/
def run (s : Summary) (r : Region) : Nat → Iteration S → Option (Solution S)
  | fuel, it =>
    match it.queue with
    | [] => some it.toSolution
    | n :: rest =>
      match fuel with
      | 0 => none
      | fuel + 1 => run s r fuel (visit s r { it with queue := rest } n)

end Iteration

namespace Solution

variable {S : Type} [Domain S] [DecidableEq S]

/-- The solution that the iteration over a region ends with. -/
def solve? (fuel : Nat) (s : Summary) (r : Region) : Option (Solution S) :=
  Iteration.run s r fuel (Iteration.start r)

/-- The state just before each event of a node. -/
def beforeEvents (solution : Solution S) (s : Summary) (n : Nat) : List S :=
  Domain.beforeEach s.geometry ((solution.ins.get? n).getD Domain.bottom) (s.eventsOf n)

end Solution

end CacheVerdict
