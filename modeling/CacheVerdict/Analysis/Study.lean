import CacheVerdict.Analysis.Verdict
import CacheVerdict.Flow.Solve
import CacheVerdict.Procedure.LoopNest
import CacheVerdict.Program.CallOrder
import CacheVerdict.Resolution.ReferenceTable

/-!
# Studies

A program with everything that is fixed before its caches are analysed, the findings made so far,
and the events that a level sees in a procedure given those findings.
-/

namespace CacheVerdict

/-- A program to analyse, with its resolved references, its loops and its call order. -/
structure Study where
  program : Program
  hierarchy : Hierarchy
  settings : Settings
  callOrder : CallOrder
  /-- The procedures that no procedure calls. -/
  roots : List Nat
  /-- The references of each procedure. -/
  references : List ReferenceTable
  /-- The loop nest of each procedure. -/
  nests : List LoopNest

/-- What has been found for the procedures and levels analysed so far. -/
structure Findings where
  summaries : OrderedMap LevelKey Summary := {}
  footprints : OrderedMap LevelKey Effect := {}
  verdicts : OrderedMap AccessKey Verdict := {}

namespace Study

/-- The study of a program: every address is resolved. -/
def ofProgram (program : Program) (hierarchy : Hierarchy) (settings : Settings) : Study :=
  { program, hierarchy, settings
    callOrder := program.callOrder
    roots := program.roots
    references := program.procedures.map (.build settings program.segments hierarchy)
    nests := program.procedures.map Procedure.loopNest }

/-- A procedure of the program. -/
def procedure (s : Study) (p : Nat) : Procedure :=
  s.program.procedures[p]?.getD { name := "" }

/-- The references of a procedure. -/
def referencesOf (s : Study) (p : Nat) : ReferenceTable :=
  s.references[p]?.getD {}

/-- The loop nest of a procedure. -/
def nest (s : Study) (p : Nat) : LoopNest :=
  s.nests[p]?.getD (.ofLoops [])

/-- Whether an access reaches a level. At the nearest level of its kind it always does. -/
def reachOf (s : Study) (f : Findings) (p : Nat) (site : Site) (level : Level) : Reach :=
  match s.hierarchy.previous? site.kind level with
  | none => .always
  | some previous => Verdict.nextReach (f.verdicts.get? ⟨p, site, previous⟩)

/-- The effect assumed of a call when nothing is known of the callee. -/
def unknownCallee (s : Study) : Effect :=
  { unknown := s.settings.unknownCalleesClobber }

/-- The effect of a call: the footprint of the callee, unless it lies outside the program, the call
closes a cycle, or the callee has not been analysed. -/
def calleeEffect (s : Study) (f : Findings) (p : Nat) (callee : String) (level : Level) : Effect :=
  match s.program.procedureNamed? callee with
  | none => s.unknownCallee
  | some c =>
    if ⟨p, c⟩ ∈ s.callOrder.recursive then s.unknownCallee
    else (f.footprints.get? ⟨c, level⟩).getD s.unknownCallee

/-- The lines that references occupy in a cache; unknown as soon as one of them is. -/
def targetOf (shift : Nat) (g : Geometry) (references : OrderedSet Reference) : Target :=
  if references.toList.any Reference.isUnknown then .unknown
  else .lines (OrderedSet.ofList (references.toList.map (·.lineAt shift g))).toList

/-- The accesses of an instruction that a level serves: its fetch, then its data. -/
def accessesOf (shift : Nat) (level : Level) (g : Geometry) (n : Nat) (references : NodeReferences)
    (i : Instruction) : List (Site × Target) :=
  let fetch :=
    if level.serves .fetch then
      (references.fetches.get? i.address).map fun r =>
        ((⟨n, i.address, .fetch⟩ : Site), Target.lines [r.lineAt shift g])
    else none
  let data :=
    if level.serves .data then
      (references.data.get? i.address).map fun rs =>
        ((⟨n, i.address, .data⟩ : Site), targetOf shift g rs)
    else none
  fetch.toList ++ data.toList

/-- The event of an access, unless it never reaches the level. -/
def accessEvent? (s : Study) (f : Findings) (p : Nat) (level : Level) (site : Site)
    (target : Target) : Option Event :=
  let reach := s.reachOf f p site level
  let frameOffset :=
    if site.kind = .data then (s.referencesOf p).frameOffsets.get? site.instruction else none
  if reach = .never then none else some (.access { site, target, reach, frameOffset })

/-- The events of a node. -/
def nodeEvents (s : Study) (f : Findings) (p : Nat) (level : Level) (g : Geometry) (n : Nat) :
    List Event :=
  let references := s.referencesOf p
  match (s.procedure p).nodes[n]? with
  | none => []
  | some node =>
    match node.callee? with
    | some callee =>
      let effect := (s.calleeEffect f p callee level).calledAt (references.heights.atEntry n)
      [.call (.ofEffect g s.settings.stackBase effect)]
    | none =>
      match references.node? n with
      | none => []
      | some found =>
        (node.code.flatMap (accessesOf s.hierarchy.finestShift level g n found)).filterMap
          fun (site, target) => s.accessEvent? f p level site target

/-- A procedure as a level sees it. -/
def summary (s : Study) (f : Findings) (p : Nat) (level : Level) (g : Geometry)
    (coldStart : Bool) : Summary :=
  let procedure := s.procedure p
  { geometry := g
    predecessors := procedure.nodeIds.map procedure.predecessors
    successors := procedure.nodeIds.map procedure.successors
    entries := procedure.entries
    events := procedure.nodeIds.map (s.nodeEvents f p level g)
    coldStart }

end Study

end CacheVerdict
