import CacheVerdict.Hierarchy.Geometry
import CacheVerdict.Hierarchy.Level
import CacheVerdict.Ordered.Map

/-!
# Cache hierarchies

The configured caches, each at its level. A hierarchy serves both kinds of access, holds a level
at most once, and has no third level without a second.
-/

namespace CacheVerdict

/-- A text that names no level. -/
structure UnknownLevel where
  name : String
deriving DecidableEq, Repr

/-- The wording of a refusal. -/
def UnknownLevel.message (fault : UnknownLevel) : String :=
  s!"unknown cache level `{fault.name}`"

/-- Reads the name of a level. -/
def Level.read (name : String) : Except UnknownLevel Level :=
  match Level.ofName? name with
  | some level => .ok level
  | none => .error ⟨name⟩

/-- Why caches form no hierarchy. -/
inductive HierarchyFault where
  | geometry (level : Level) (cause : GeometryFault)
  | repeated (level : Level)
  | gap
  | noLevel
  | unserved (kind : AccessKind)
deriving DecidableEq, Repr

/-- The wording of a refusal. -/
def HierarchyFault.message : HierarchyFault → String
  | .geometry level cause => s!"invalid cache configuration for {level.label}: {cause.message}"
  | .repeated level =>
    s!"invalid cache configuration for {level.label}: level configured more than once"
  | .gap => s!"invalid cache configuration for {Level.l3.label}: configured without an L2 below it"
  | .noLevel => "missing required input: no cache level configured"
  | .unserved kind => s!"missing required input: no cache level serves {kind.label} references"

/-- The configured caches. -/
structure Hierarchy where
  caches : OrderedMap Level Geometry
  served : ∀ kind : AccessKind, ∃ level ∈ caches.keys, level.serves kind = true

namespace Hierarchy

/-- The geometry of dimensions meant for a level. -/
def geometryAt (level : Level) (d : Dimensions) : Except HierarchyFault Geometry :=
  d.geometry.mapError (.geometry level)

/-- The caches by level; no level may come twice. -/
def collect (caches : List (Level × Geometry)) :
    Except HierarchyFault (OrderedMap Level Geometry) :=
  caches.foldlM (fun found cache =>
    if found.contains cache.1 then .error (.repeated cache.1)
    else .ok (found.insert cache.1 cache.2)) {}

/-- The hierarchy of the given caches, or the first condition that fails. -/
def assemble (caches : List (Level × Geometry)) : Except HierarchyFault Hierarchy :=
  (collect caches).bind fun found =>
    if found.isEmpty then .error .noLevel
    else if found.contains .l3 && !found.contains .l2 then .error .gap
    else if fetch : ∃ level ∈ found.keys, level.serves .fetch = true then
      if data : ∃ level ∈ found.keys, level.serves .data = true then
        .ok ⟨found, fun kind => by cases kind <;> assumption⟩
      else .error (.unserved .data)
    else .error (.unserved .fetch)

/-- The binary logarithm of the smallest line size, at which references are told apart. -/
def finestShift (h : Hierarchy) : Nat :=
  (h.caches.values.map Geometry.lineShift).min?.getD 0

/-- The smallest line size. -/
def finestLineSize (h : Hierarchy) : Nat :=
  Nat.pow 2 h.finestShift

/-- The levels that accesses of a kind go through, nearest first. -/
def levelsFor (h : Hierarchy) (kind : AccessKind) : List Level :=
  h.caches.keys.filter (·.serves kind)

/-- The level that accesses of a kind meet just before `level`. -/
def previous? (h : Hierarchy) (kind : AccessKind) (level : Level) : Option Level :=
  let chain := h.levelsFor kind
  if level ∈ chain then (chain.takeWhile (· ≠ level)).getLast? else none

end Hierarchy

end CacheVerdict
