import CacheVerdict.Flow.Effect
import CacheVerdict.Hierarchy.Level

/-!
# Events

What happens to one cache in the nodes of a procedure: accesses that may reach the cache, and
calls.
-/

namespace CacheVerdict

/-- Where an access comes from. -/
structure Site where
  node : Nat
  instruction : Address
  kind : AccessKind
deriving DecidableEq, Repr, Inhabited

/-- The lines that an access touches. -/
inductive Target where
  /-- One of these lines. -/
  | lines (candidates : List Line)
  /-- Any line at all. -/
  | unknown
deriving DecidableEq, Repr

/-- The lines of a target; none where they are not known. -/
def Target.toList : Target → List Line
  | .lines candidates => candidates
  | .unknown => []

/-- Whether an access reaches a cache at all. -/
inductive Reach where
  | always
  | uncertain
  | never
deriving DecidableEq, Repr, Inhabited

/-- How reports name the class. -/
def Reach.label : Reach → String
  | .always => "always"
  | .uncertain => "uncertain"
  | .never => "never"

/-- An access as one cache sees it. -/
structure Access where
  site : Site
  target : Target
  reach : Reach
  /-- For an access to the frame, the byte counted from the stack pointer on entry. -/
  frameOffset : Option Int64
deriving DecidableEq

/-- Something that happens to the cache. -/
inductive Event where
  | access (access : Access)
  | call (call : Call)
deriving DecidableEq

/-- A procedure as one cache sees it: the events of each node, and the control-flow graph. -/
structure Summary where
  geometry : Geometry
  /-- The sources of the edges into each node. -/
  predecessors : List (List Nat)
  /-- The targets of the edges out of each node. -/
  successors : List (List Nat)
  entries : List Nat
  events : List (List Event)
  /-- The procedure starts with an empty cache. -/
  coldStart : Bool

namespace Summary

/-- The events of a node. -/
def eventsOf (s : Summary) (n : Nat) : List Event :=
  s.events[n]?.getD []

/-- The sources of the edges into a node, in the order of the edges. -/
def predecessorsOf (s : Summary) (n : Nat) : List Nat :=
  s.predecessors[n]?.getD []

/-- The targets of the edges out of a node, in the order of the edges. -/
def successorsOf (s : Summary) (n : Nat) : List Nat :=
  s.successors[n]?.getD []

/-- Adds what an event touches. -/
def touchedBy (e : Effect) : Event → Effect
  | .access a =>
    match a.target, a.frameOffset with
    | .unknown, _ => { e with unknown := true }
    | .lines _, some offset => { e with frame := e.frame.insert offset }
    | .lines candidates, none => { e with lines := e.lines.insertAll candidates }
  | .call c => e.union c.effect

/-- Everything that the procedure may touch. -/
def footprint (s : Summary) : Effect :=
  s.events.flatten.foldl touchedBy {}

end Summary

/-- The nodes that an analysis runs over. Only edges between them are followed, and the entries
receive the starting state. -/
structure Region where
  nodes : OrderedSet Nat
  entries : List Nat

namespace Region

/-- All nodes of a procedure. -/
def whole (s : Summary) : Region :=
  ⟨.below s.events.length, s.entries⟩

/-- Whether all nodes of the region are nodes of the procedure. -/
def isWithin (r : Region) (s : Summary) : Bool :=
  r.nodes.toList.all (· < s.events.length)

end Region

end CacheVerdict
