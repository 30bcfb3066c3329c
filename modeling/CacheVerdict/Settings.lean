import CacheVerdict.Hierarchy.Geometry

/-!
# Analysis settings

What the analysis assumes and how far it looks. Each flag of the command line changes one of the
assumptions.
-/

namespace CacheVerdict

/-- The assumptions of an analysis. -/
structure Settings where
  /-- How many predecessors the search for one address may visit. -/
  nodeBudget : Nat := 100
  /-- The stack pointer on entry to a procedure. -/
  stackBase : Address := 0x7ffff000
  /-- A register-indexed access may touch every line of its segment. -/
  indexedAsRange : Bool := true
  /-- Every access to a segment may touch every line of it. -/
  segmentAsRange : Bool := false
  /-- Other accesses touch the address found, not the lower bound of its segment. -/
  exactAddresses : Bool := false
  /-- A procedure that nothing calls starts with an empty cache. -/
  coldRoots : Bool := true
  /-- A call whose effect is not known may touch every line. -/
  unknownCalleesClobber : Bool := true
  /-- Accesses in loops are looked at for persistence. -/
  persistence : Bool := true
deriving DecidableEq, Repr, Inhabited

/-- A flag that changes one setting. -/
inductive Flag where
  | disableRangeForIndexedAccesses
  | treatAllSegmentAccessesAsRanges
  | useExactSegmentAddresses
  | disableColdCacheAtRoots
  | ignoreUnknownCallees
  | disablePersistenceAnalysis
deriving DecidableEq, Repr

namespace Flag

/-- Every flag. -/
def all : List Flag :=
  [.disableRangeForIndexedAccesses, .treatAllSegmentAccessesAsRanges, .useExactSegmentAddresses,
    .disableColdCacheAtRoots, .ignoreUnknownCallees, .disablePersistenceAnalysis]

/-- The name of a flag on the command line. -/
def name : Flag → String
  | .disableRangeForIndexedAccesses => "disable-range-for-indexed-accesses"
  | .treatAllSegmentAccessesAsRanges => "treat-all-segment-accesses-as-ranges"
  | .useExactSegmentAddresses => "use-exact-segment-addresses"
  | .disableColdCacheAtRoots => "disable-cold-cache-at-roots"
  | .ignoreUnknownCallees => "ignore-unknown-callees"
  | .disablePersistenceAnalysis => "disable-persistence-analysis"

/-- The flag of a name. -/
def ofName? (name : String) : Option Flag :=
  all.find? (·.name = name)

end Flag

/-- A text that names no flag. -/
structure UnknownFlag where
  name : String
deriving DecidableEq, Repr

/-- The wording of a refusal. -/
def UnknownFlag.message (fault : UnknownFlag) : String :=
  s!"Invalid variant: {fault.name}"

namespace Settings

/-- Changes one setting. -/
def apply (s : Settings) : Flag → Settings
  | .disableRangeForIndexedAccesses => { s with indexedAsRange := false }
  | .treatAllSegmentAccessesAsRanges => { s with segmentAsRange := true }
  | .useExactSegmentAddresses => { s with exactAddresses := true }
  | .disableColdCacheAtRoots => { s with coldRoots := false }
  | .ignoreUnknownCallees => { s with unknownCalleesClobber := false }
  | .disablePersistenceAnalysis => { s with persistence := false }

/-- The default settings, changed by each flag. -/
def ofFlags (flags : List Flag) : Settings :=
  flags.foldl apply {}

/-- Reads the names of flags. -/
def ofNames (names : List String) : Except UnknownFlag Settings :=
  ofFlags <$> names.mapM fun name =>
    match Flag.ofName? name with
    | some flag => .ok flag
    | none => .error ⟨name⟩

end Settings

end CacheVerdict
