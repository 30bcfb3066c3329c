/-!
# Work queues

The nodes that a fixed-point iteration has still to visit, first come first served and none twice.
-/

namespace CacheVerdict

/-- Puts a node at the end of the queue, unless it waits there already. -/
def enqueue (queue : List Nat) (n : Nat) : List Nat :=
  if n ∈ queue then queue else queue ++ [n]

/-- Puts nodes at the end of the queue, one after the other. -/
def enqueueAll (queue : List Nat) (nodes : List Nat) : List Nat :=
  nodes.foldl enqueue queue

end CacheVerdict
