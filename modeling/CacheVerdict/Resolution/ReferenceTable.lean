import CacheVerdict.Ordered.Map
import CacheVerdict.Resolution.Basic

/-!
# Reference tables

The references of one procedure: what each instruction fetches and which data it touches, by node
and instruction address, and the stack offsets of the accesses to its frame.
-/

namespace CacheVerdict

/-- The references of a node that holds code, by instruction address. -/
structure NodeReferences where
  fetches : OrderedMap Address Reference := {}
  data : OrderedMap Address (OrderedSet Reference) := {}
  /-- The blocks of all accesses, in program order. -/
  blocks : List Block := []

/-- How many accesses came to each kind of outcome. -/
structure Tally where
  exact : Nat := 0
  segment : Nat := 0
  range : Nat := 0
  stack : Nat := 0
  unresolved : Nat := 0
deriving DecidableEq, Repr

/-- Counts one outcome. -/
def Tally.count (t : Tally) : Outcome → Tally
  | .exact _ => { t with exact := t.exact + 1 }
  | .segment _ _ => { t with segment := t.segment + 1 }
  | .range _ _ => { t with range := t.range + 1 }
  | .stack _ _ => { t with stack := t.stack + 1 }
  | .unresolved _ => { t with unresolved := t.unresolved + 1 }

/-- The references of a procedure. -/
structure ReferenceTable where
  heights : StackHeights := {}
  /-- The references of each node; none for a call. -/
  nodes : List (Option NodeReferences) := []
  /-- The offsets of accesses to the frame, by instruction address. -/
  frameOffsets : OrderedMap Address Int64 := {}
  tally : Tally := {}

/-- An access and its resolution. -/
structure ResolvedAccess where
  instruction : Instruction
  resolution : Resolution

namespace ReferenceTable

/-- The accesses of a node with their resolutions, in program order. -/
def accesses (s : Settings) (segments : Segments) (lineSize : Nat) (p : Procedure) (m : SearchMap)
    (n : Nat) : List ResolvedAccess :=
  (p.codeOf n).filterMap fun i =>
    if i.isAccess then some ⟨i, .resolve s segments lineSize m n i⟩ else none

/-- The references of a node's code and its resolved accesses. Accesses at one address share an
entry. -/
def ofNode (shift : Nat) (code : List Instruction) (accesses : List ResolvedAccess) :
    NodeReferences where
  fetches := .ofList (code.map fun i => (i.address, .ofAddress shift .fetch i.address))
  data := accesses.foldl (fun found a =>
    found.insertWith .union a.instruction.address
      (.ofList (a.resolution.blocks.map (.ofBlock shift)))) {}
  blocks := accesses.flatMap fun a => a.resolution.blocks

/-- The offset of an access to the frame. -/
def frameOffset? (a : ResolvedAccess) : Option (Address × Int64) :=
  match a.resolution.outcome with
  | .stack _ offset => some (a.instruction.address, offset)
  | _ => none

/-- The references of a procedure. -/
def build (s : Settings) (segments : Segments) (h : Hierarchy) (p : Procedure) : ReferenceTable :=
  let heights := p.stackHeights
  let resolved := p.nodeIds.map (accesses s segments h.finestLineSize p (p.searchMap heights))
  let all := resolved.flatten
  { heights
    nodes := p.nodes.zipWith (fun n found =>
      if n.isCall then none else some (ofNode h.finestShift n.code found)) resolved
    frameOffsets := .ofList (all.filterMap frameOffset?)
    tally := all.foldl (fun t a => t.count a.resolution.outcome) {} }

/-- The references of a node; none for a call. -/
def node? (t : ReferenceTable) (n : Nat) : Option NodeReferences :=
  t.nodes[n]?.join

end ReferenceTable

end CacheVerdict
